import KnightCode.Source.Program

/-!
# Well-typed programs

The compiler does not check types. A program is well typed if each name in it is declared and used as the first
declaration of the name says: arithmetic, comparisons and tests are about integers, and a variable is set to values of
its own type only.
-/

namespace KnightCode

abbrev Typing := String → Option VarType

/-- The first declaration of a name fixes its type. -/
def Program.typing (p : Program) : Typing := fun name =>
  ((p.declarations.getD []).find? fun d => d.name = name).map (·.type)

def Expr.isInteger (types : Typing) : Expr → Bool
  | .number _ => true
  | .name x => types x = some .integer
  | .paren inner => inner.isInteger types
  | .arithmetic _ left right | .compare _ left right => left.isInteger types && right.isInteger types

/-- The expression is the name of a text variable, perhaps in parentheses. -/
def Expr.isText (types : Typing) : Expr → Bool
  | .name x => types x = some .text
  | .paren inner => inner.isText types
  | _ => false

def Expr.hasType (types : Typing) (e : Expr) : VarType → Bool
  | .integer => e.isInteger types
  | .text => e.isText types

namespace Expr

variable {types : Typing} {type : VarType} {left right : Expr}

theorem hasType_number {value : Int32} : (number value).hasType types type = true ↔ type = .integer := by
  cases type <;> simp [hasType, isInteger, isText]

theorem hasType_name {x : String} : (name x).hasType types type = true ↔ types x = some type := by
  cases type <;> simp [hasType, isInteger, isText]

theorem hasType_paren {inner : Expr} : (paren inner).hasType types type = inner.hasType types type := by
  cases type <;> rfl

theorem hasType_arithmetic {op : Arithmetic} : (arithmetic op left right).hasType types type = true ↔
    type = .integer ∧ left.isInteger types = true ∧ right.isInteger types = true := by
  cases type <;> simp [hasType, isInteger, isText]

theorem hasType_compare {op : Comparison} : (compare op left right).hasType types type = true ↔
    type = .integer ∧ left.isInteger types = true ∧ right.isInteger types = true := by
  cases type <;> simp [hasType, isInteger, isText]

end Expr

def Operand.isInteger (types : Typing) : Operand → Bool
  | .number _ => true
  | .name x => types x = some .integer

def Test.wellTyped (types : Typing) (t : Test) : Bool := t.left.isInteger types && t.right.isInteger types

mutual

def Stmt.wellTyped (types : Typing) : Stmt → Bool
  | .printText _ => true
  | .printName name | .read name => (types name).isSome
  | .setText name _ => types name = some .text
  | .setExpr name value => (types name).any (value.hasType types)
  | .ifThen test thenBody => test.wellTyped types && blockWellTyped types thenBody
  | .ifElse test thenBody elseBody =>
    test.wellTyped types && blockWellTyped types thenBody && blockWellTyped types elseBody
  | .whileDo test body => test.wellTyped types && blockWellTyped types body

def blockWellTyped (types : Typing) : List Stmt → Bool
  | [] => true
  | stmt :: rest => stmt.wellTyped types && blockWellTyped types rest

end

def Program.wellTyped (p : Program) : Bool := blockWellTyped p.typing p.body

end KnightCode
