import KnightCode.Source.Program
import KnightCode.Source.Token

/-!
# The grammar

The tokens that a program is written with, and the syntax trees that the grammar gives. In an expression, products bind
tighter than sums and sums tighter than a comparison, of which there is at most one outside of parentheses; operators of
the same rank go with what stands to their left.
-/

namespace KnightCode

/-! ## Expressions -/

def Arithmetic.symbol : Arithmetic → Symbol
  | .add => .plus
  | .sub => .minus
  | .mul => .star
  | .div => .slash

def Arithmetic.isProduct : Arithmetic → Bool
  | .add | .sub => false
  | .mul | .div => true

def Comparison.symbol : Comparison → Symbol
  | .greater => .greater
  | .less => .less
  | .equal => .equal
  | .different => .different

def Expr.tokens : Expr → List Token
  | .number value => [.number value]
  | .name x => [.name x]
  | .paren inner => .symbol .openParen :: (inner.tokens ++ [.symbol .closeParen])
  | .arithmetic op left right => left.tokens ++ .symbol op.symbol :: right.tokens
  | .compare op left right => left.tokens ++ .symbol op.symbol :: right.tokens

/-- The kinds of expressions, the tightest first. -/
inductive Rank
  | primary
  | product
  | sum
  | comparison
  deriving DecidableEq

/-- The grammar of expressions. -/
inductive Rank.Derives : Rank → Expr → Prop
  | number (value : Int32) : Derives .primary (.number value)
  | name (x : String) : Derives .primary (.name x)
  | paren {inner : Expr} : Derives .comparison inner → Derives .primary (.paren inner)
  | ofPrimary {e : Expr} : Derives .primary e → Derives .product e
  | product {op : Arithmetic} {left right : Expr} : op.isProduct = true → Derives .product left →
      Derives .primary right → Derives .product (.arithmetic op left right)
  | ofProduct {e : Expr} : Derives .product e → Derives .sum e
  | sum {op : Arithmetic} {left right : Expr} : op.isProduct = false → Derives .sum left → Derives .product right →
      Derives .sum (.arithmetic op left right)
  | ofSum {e : Expr} : Derives .sum e → Derives .comparison e
  | comparison {op : Comparison} {left right : Expr} : Derives .sum left → Derives .sum right →
      Derives .comparison (.compare op left right)

/-! ## Statements -/

def Operand.token : Operand → Token
  | .number value => .number value
  | .name x => .name x

def Test.tokens (t : Test) : List Token := [t.left.token, .symbol t.op.symbol, t.right.token]

mutual

def Stmt.tokens : Stmt → List Token
  | .printText text => [.keyword .PRINT, .text text]
  | .printName name => [.keyword .PRINT, .name name]
  | .read name => [.keyword .READ, .name name]
  | .setText name text => [.keyword .SET, .name name, .symbol .assign, .text text]
  | .setExpr name value => [.keyword .SET, .name name, .symbol .assign] ++ value.tokens
  | .ifThen test thenBody =>
    [.keyword .IF] ++ test.tokens ++ [.keyword .THEN] ++ blockTokens thenBody ++ [.keyword .ENDIF]
  | .ifElse test thenBody elseBody =>
    [.keyword .IF] ++ test.tokens ++ [.keyword .THEN] ++ blockTokens thenBody ++ [.keyword .ELSE] ++
      blockTokens elseBody ++ [.keyword .ENDIF]
  | .whileDo test body =>
    [.keyword .WHILE] ++ test.tokens ++ [.keyword .DO] ++ blockTokens body ++ [.keyword .ENDWHILE]

def blockTokens : List Stmt → List Token
  | [] => []
  | stmt :: rest => stmt.tokens ++ blockTokens rest

end

mutual

/-- The expressions in a statement are derived by the grammar; all else about a statement is in its form. -/
def Stmt.Canonical : Stmt → Prop
  | .printText _ | .printName _ | .read _ | .setText .. => True
  | .setExpr _ value => Rank.comparison.Derives value
  | .ifThen _ thenBody => blockCanonical thenBody
  | .ifElse _ thenBody elseBody => blockCanonical thenBody ∧ blockCanonical elseBody
  | .whileDo _ body => blockCanonical body

def blockCanonical : List Stmt → Prop
  | [] => True
  | stmt :: rest => stmt.Canonical ∧ blockCanonical rest

end

@[simp] theorem blockTokens_append (first second : List Stmt) :
    blockTokens (first ++ second) = blockTokens first ++ blockTokens second := by
  induction first with
  | nil => rfl
  | cons stmt first ih => simp [blockTokens, ih]

theorem blockTokens_singleton (stmt : Stmt) : blockTokens [stmt] = stmt.tokens := by simp [blockTokens]

theorem blockCanonical_iff {body : List Stmt} : blockCanonical body ↔ ∀ stmt ∈ body, stmt.Canonical := by
  induction body with
  | nil => simp [blockCanonical]
  | cons stmt body ih => simp [blockCanonical, ih]

@[simp] theorem blockCanonical_reverse {body : List Stmt} : blockCanonical body.reverse ↔ blockCanonical body := by
  simp [blockCanonical_iff]

/-! ## Programs -/

def VarType.keyword : VarType → Keyword
  | .integer => .INTEGER
  | .text => .STRING

def Declaration.tokens (d : Declaration) : List Token := [.keyword d.type.keyword, .name d.name]

def headerTokens (name : String) (declarations : Option (List Declaration)) : List Token :=
  [.keyword .PROGRAM, .name name] ++
    (declarations.elim [] fun declared => .keyword .DECLARE :: declared.flatMap Declaration.tokens) ++ [.keyword .BEGIN]

def Program.tokens (p : Program) : List Token :=
  headerTokens p.name p.declarations ++ blockTokens p.body ++ [.keyword .END]

def Program.Canonical (p : Program) : Prop := blockCanonical p.body

end KnightCode
