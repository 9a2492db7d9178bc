import KnightCode.Operator

/-!
# Programs

A program declares variables and has a body of statements. An expression may compute with integers; the test of an `IF`
or `WHILE` compares two numbers or variables.
-/

namespace KnightCode

inductive VarType
  | integer
  | text
  deriving DecidableEq, Repr

def VarType.spelling : VarType → String
  | .integer => "INTEGER"
  | .text => "STRING"

inductive Expr
  | number (value : Int32)
  | name (name : String)
  | paren (inner : Expr)
  | arithmetic (op : Arithmetic) (left right : Expr)
  | compare (op : Comparison) (left right : Expr)
  deriving DecidableEq, Repr

inductive Operand
  | number (value : Int32)
  | name (name : String)
  deriving DecidableEq, Repr

structure Test where
  left : Operand
  op : Comparison
  right : Operand
  deriving DecidableEq, Repr

inductive Stmt
  | printText (text : String)
  | printName (name : String)
  | read (name : String)
  | setText (name : String) (text : String)
  | setExpr (name : String) (value : Expr)
  | ifThen (test : Test) (thenBody : List Stmt)
  | ifElse (test : Test) (thenBody elseBody : List Stmt)
  | whileDo (test : Test) (body : List Stmt)
  deriving Repr

/-- Induction over a block: `P` is about statements and `Q` about blocks. -/
theorem block_induction {P : Stmt → Prop} {Q : List Stmt → Prop}
    (printText : ∀ text, P (.printText text))
    (printName : ∀ name, P (.printName name))
    (read : ∀ name, P (.read name))
    (setText : ∀ name text, P (.setText name text))
    (setExpr : ∀ name value, P (.setExpr name value))
    (ifThen : ∀ test thenBody, Q thenBody → P (.ifThen test thenBody))
    (ifElse : ∀ test thenBody elseBody, Q thenBody → Q elseBody → P (.ifElse test thenBody elseBody))
    (whileDo : ∀ test body, Q body → P (.whileDo test body))
    (nil : Q [])
    (cons : ∀ stmt rest, P stmt → Q rest → Q (stmt :: rest)) (body : List Stmt) : Q body :=
  @Stmt.rec_1 P Q printText printName read setText setExpr ifThen ifElse whileDo nil cons body

structure Declaration where
  type : VarType
  name : String
  deriving DecidableEq, Repr

structure Program where
  name : String
  /-- `none` if the program has no `DECLARE`. -/
  declarations : Option (List Declaration)
  body : List Stmt
  deriving Repr

end KnightCode
