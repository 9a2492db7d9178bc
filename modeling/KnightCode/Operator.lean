/-!
# Operators

The arithmetic and the comparisons of the language, and the conditions on which a jump can depend.
-/

namespace KnightCode

inductive Arithmetic
  | add
  | sub
  | mul
  | div
  deriving DecidableEq, Repr

inductive Condition
  | eq
  | ne
  | lt
  | ge
  | gt
  | le
  deriving DecidableEq, Repr

/-- The condition that holds exactly when this one does not. -/
def Condition.negate : Condition → Condition
  | .eq => .ne
  | .ne => .eq
  | .lt => .ge
  | .ge => .lt
  | .gt => .le
  | .le => .gt

@[simp] theorem Condition.negate_negate (c : Condition) : c.negate.negate = c := by cases c <;> rfl

inductive Comparison
  | greater
  | less
  | equal
  | different
  deriving DecidableEq, Repr

def Comparison.condition : Comparison → Condition
  | .greater => .gt
  | .less => .lt
  | .equal => .eq
  | .different => .ne

end KnightCode
