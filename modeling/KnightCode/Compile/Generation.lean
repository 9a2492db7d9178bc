import KnightCode.Compile.Session

/-!
# The code of programs

Compiles a program in a session, statement by statement: looks its variables up in the scope table and calls on the
method body. The blocks of an `IF` or `WHILE` have scopes of their own.
-/

namespace KnightCode

/-! ## The classes that compiled programs use -/

namespace Library

def output : MemberRef := ⟨"java/lang/System", "out", "Ljava/io/PrintStream;"⟩

def input : MemberRef := ⟨"java/lang/System", "in", "Ljava/io/InputStream;"⟩

def printInt : MemberRef := ⟨"java/io/PrintStream", "println", "(I)V"⟩

def printText : MemberRef := ⟨"java/io/PrintStream", "println", "(Ljava/lang/String;)V"⟩

def print : VarType → MemberRef
  | .integer => printInt
  | .text => printText

def scannerClass : String := "java/util/Scanner"

/-- The console reader is a field of the compiled class itself. -/
def console (className : String) : MemberRef := ⟨className, "stdin", "Ljava/util/Scanner;"⟩

def newScanner : MemberRef := ⟨scannerClass, "<init>", "(Ljava/io/InputStream;)V"⟩

def nextLine : MemberRef := ⟨scannerClass, "nextLine", "()Ljava/lang/String;"⟩

def trim : MemberRef := ⟨"java/lang/String", "trim", "()Ljava/lang/String;"⟩

def parseInt : MemberRef := ⟨"java/lang/Integer", "parseInt", "(Ljava/lang/String;)I"⟩

end Library

def VarType.kind : VarType → ValueKind
  | .integer => .int
  | .text => .reference

def pushDefault : VarType → Call
  | .integer => .pushInt 0
  | .text => .pushText ""

/-- The type of an expression: a variable has its declared type, all else is an integer. -/
def Expr.type (scope : ScopeTable) : Expr → VarType
  | .name x => ((scope.lookup? x).map (·.type)).getD .integer
  | .paren inner => inner.type scope
  | _ => .integer

namespace Session

/-! ## Expressions -/

/-- Pushes the value of a variable. An undeclared one counts as zero. -/
def loadVariable (name : String) : Compiling Unit := do
  match ← resolve name with
  | some (slot, type) => call (.load slot type.kind)
  | none => call (.pushInt 0)

/-- Pushes the value of an expression. A comparison is worth one if it holds and zero if not. -/
def compileExpr : Expr → Compiling Unit
  | .number value => call (.pushInt value)
  | .name x => loadVariable x
  | .paren inner => compileExpr inner
  | .arithmetic op left right => do
    compileExpr left
    compileExpr right
    call (.arithmetic op)
  | .compare op left right => do
    let yes ← newLabel
    let done ← newLabel
    compileExpr left
    compileExpr right
    call (.branch op.condition yes)
    call (.pushInt 0)
    call (.jump done)
    call (.bind yes)
    call (.pushInt 1)
    call (.bind done)

def loadOperand : Operand → Compiling Unit
  | .number value => call (.pushInt value)
  | .name x => loadVariable x

/-! ## Statements -/

def compileTest (t : Test) (condition : Condition) (label : Nat) : Compiling Unit := do
  loadOperand t.left
  loadOperand t.right
  call (.branch condition label)

def withVariable (name : String) (work : UInt16 → VarType → Compiling Unit) : Compiling Unit := do
  match ← resolve name with
  | some (slot, type) => work slot type
  | none => return

def printVariable (slot : UInt16) (type : VarType) : Compiling Unit := do
  call (.getStatic Library.output)
  call (.load slot type.kind)
  call (.invokeVirtual (Library.print type))

/-- An integer may have blanks around it. -/
def convertLine : VarType → Compiling Unit
  | .integer => do
    call (.invokeVirtual Library.trim)
    call (.invokeStatic Library.parseInt)
  | .text => return

def readVariable (slot : UInt16) (type : VarType) : Compiling Unit := do
  let className := (← get).className
  modify ({ · with readsInput := true })
  call (.getStatic (Library.console className))
  call (.invokeVirtual Library.nextLine)
  convertLine type
  call (.store slot type.kind)

def assignText (name text : String) (slot : UInt16) (type : VarType) : Compiling Unit := do
  -- A text for an integer variable is noticed and stored nevertheless.
  if type ≠ .text then say (.textAssigned type name)
  call (.pushText text)
  call (.store slot type.kind)
  remember name (.text text)

def checkType (name : String) (valueType type : VarType) : Compiling Unit :=
  if valueType ≠ type then say (.typesDiffer valueType type name) else return

def rememberLiteral (name : String) : Expr → Compiling Unit
  | .number n => remember name (.integer n)
  | _ => return

def assignExpr (name : String) (value : Expr) (slot : UInt16) (type : VarType) : Compiling Unit := do
  checkType name (value.type (← get).scope) type
  compileExpr value
  call (.store slot type.kind)
  rememberLiteral name value

mutual

/-- An `IF` branches to its `THEN` part, which stands after the `ELSE` part. A `WHILE` leaves its loop when the test
does not hold. -/
def compileStmt : Stmt → Compiling Unit
  | .printText text => do
    call (.getStatic Library.output)
    call (.pushText text)
    call (.invokeVirtual Library.printText)
  | .printName name => withVariable name printVariable
  | .read name => withVariable name readVariable
  | .setText name text => withVariable name (assignText name text)
  | .setExpr name value => withVariable name (assignExpr name value)
  | .ifThen test thenBody => do
    let yes ← newLabel
    let done ← newLabel
    compileTest test test.op.condition yes
    call (.jump done)
    call (.bind yes)
    inNewScope (compileBlock thenBody)
    call (.bind done)
  | .ifElse test thenBody elseBody => do
    let yes ← newLabel
    let done ← newLabel
    compileTest test test.op.condition yes
    inNewScope (compileBlock elseBody)
    call (.jump done)
    call (.bind yes)
    inNewScope (compileBlock thenBody)
    call (.bind done)
  | .whileDo test body => do
    let again ← newLabel
    let done ← newLabel
    call (.bind again)
    compileTest test test.op.condition.negate done
    inNewScope (compileBlock body)
    call (.jump again)
    call (.bind done)

def compileBlock : List Stmt → Compiling Unit
  | [] => return
  | stmt :: rest => do
    compileStmt stmt
    compileBlock rest

end

/-! ## Programs -/

/-- Declares a variable and gives it its value. A second declaration of a name changes nothing. -/
def compileDeclaration (d : Declaration) : Compiling Unit := do
  match ← declare d with
  | some v =>
    call (pushDefault d.type)
    call (.store v.slot d.type.kind)
  | none => return

def compileProgram (program : Program) : Compiling Unit := do
  (program.declarations.getD []).forM compileDeclaration
  compileBlock program.body

end Session

end KnightCode
