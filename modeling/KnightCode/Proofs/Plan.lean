import KnightCode.Compile.Generation

/-!
# Plans

What compiling a program does can be said before any of it is done: the calls on the method body, the notices, and the
changes of the variables, in order. Such a plan depends on the program, on the declared variables and on what is done
about an undeclared one, and on nothing else. A plan may say that compiling fails; what follows is then never done.
-/

namespace KnightCode

inductive Action
  | call (call : Call)
  | notice (notice : Notice)
  | declare (name : String) (type : VarType)
  /-- Remembers the literal that is assigned to a variable. -/
  | remember (name : String) (value : Value)
  /-- The program reads from the console. -/
  | readsInput
  | fail (fault : Fault)
  deriving DecidableEq, Repr

/-- A plan so far. The labels of a body are numbered; `labels` is the number of the next one. -/
structure Plan where
  labels : Nat
  actions : Array Action
  deriving Repr

namespace Plan

def act (p : Plan) (action : Action) : Plan := { p with actions := p.actions.push action }

def call (p : Plan) (call : Call) : Plan := p.act (.call call)

def newLabel (p : Plan) : Plan := { p.call .newLabel with labels := p.labels + 1 }

@[simp] theorem actions_act (p : Plan) (action : Action) : (p.act action).actions = p.actions.push action := rfl

@[simp] theorem labels_act (p : Plan) (action : Action) : (p.act action).labels = p.labels := rfl

@[simp] theorem actions_call (p : Plan) (c : Call) : (p.call c).actions = p.actions.push (.call c) := rfl

@[simp] theorem labels_call (p : Plan) (c : Call) : (p.call c).labels = p.labels := rfl

@[simp] theorem actions_newLabel (p : Plan) : p.newLabel.actions = p.actions.push (.call .newLabel) := rfl

@[simp] theorem labels_newLabel (p : Plan) : p.newLabel.labels = p.labels + 1 := rfl

end Plan

structure Setting where
  className : String
  policy : UndeclaredPolicy
  scope : ScopeTable

namespace Setting

def undeclared (s : Setting) (name : String) (p : Plan) : Plan :=
  match s.policy with
  | .fatal => p.act (.fail (.undeclared name))
  | .report => p.act (.notice (.undeclared name))

def withVariable (s : Setting) (name : String) (p : Plan) (next : Variable → Plan) : Plan :=
  match s.scope.lookup? name with
  | some v => next v
  | none => s.undeclared name p

/-- The setting of a block within a block, which has a scope of its own. -/
def nested (s : Setting) : Setting := { s with scope := s.scope.enter }

end Setting

/-! ## Expressions -/

def planVariable (s : Setting) (name : String) (p : Plan) : Plan :=
  match s.scope.lookup? name with
  | some v => p.call (.load v.slot v.type.kind)
  | none => (s.undeclared name p).call (.pushInt 0)

def Expr.plan (s : Setting) : Expr → Plan → Plan
  | .number value, p => p.call (.pushInt value)
  | .name x, p => planVariable s x p
  | .paren inner, p => inner.plan s p
  | .arithmetic op left right, p => (right.plan s (left.plan s p)).call (.arithmetic op)
  | .compare op left right, p =>
    let yes := p.labels
    let done := p.labels + 1
    let p := right.plan s (left.plan s p.newLabel.newLabel)
    let p := (p.call (.branch op.condition yes)).call (.pushInt 0)
    ((((p.call (.jump done)).call (.bind yes)).call (.pushInt 1)).call (.bind done))

def Operand.plan (s : Setting) : Operand → Plan → Plan
  | .number value, p => p.call (.pushInt value)
  | .name x, p => planVariable s x p

/-! ## Statements -/

def Test.plan (s : Setting) (t : Test) (condition : Condition) (label : Nat) (p : Plan) : Plan :=
  (t.right.plan s (t.left.plan s p)).call (.branch condition label)

def planPrint (v : Variable) (p : Plan) : Plan :=
  ((p.call (.getStatic Library.output)).call (.load v.slot v.type.kind)).call (.invokeVirtual (Library.print v.type))

def planRead (className : String) (v : Variable) (p : Plan) : Plan :=
  let p := p.act .readsInput
  let p := (p.call (.getStatic (Library.console className))).call (.invokeVirtual Library.nextLine)
  let p :=
    match v.type with
    | .integer => (p.call (.invokeVirtual Library.trim)).call (.invokeStatic Library.parseInt)
    | .text => p
  p.call (.store v.slot v.type.kind)

def planSetText (v : Variable) (text : String) (p : Plan) : Plan :=
  -- A text for an integer variable is noticed and stored nevertheless.
  let p := if v.type ≠ .text then p.act (.notice (.textAssigned v.type v.name)) else p
  ((p.call (.pushText text)).call (.store v.slot v.type.kind)).act (.remember v.name (.text text))

def planSetExpr (s : Setting) (v : Variable) (value : Expr) (p : Plan) : Plan :=
  let type := value.type s.scope
  let p := if type ≠ v.type then p.act (.notice (.typesDiffer type v.type v.name)) else p
  let p := (value.plan s p).call (.store v.slot v.type.kind)
  match value with
  | .number n => p.act (.remember v.name (.integer n))
  | _ => p

mutual

def Stmt.plan (s : Setting) : Stmt → Plan → Plan
  | .printText text, p =>
    ((p.call (.getStatic Library.output)).call (.pushText text)).call (.invokeVirtual Library.printText)
  | .printName name, p => s.withVariable name p fun v => planPrint v p
  | .read name, p => s.withVariable name p fun v => planRead s.className v p
  | .setText name text, p => s.withVariable name p fun v => planSetText v text p
  | .setExpr name value, p => s.withVariable name p fun v => planSetExpr s v value p
  | .ifThen test thenBody, p =>
    let yes := p.labels
    let done := p.labels + 1
    let p := test.plan s test.op.condition yes p.newLabel.newLabel
    (planBlock s.nested thenBody ((p.call (.jump done)).call (.bind yes))).call (.bind done)
  | .ifElse test thenBody elseBody, p =>
    let yes := p.labels
    let done := p.labels + 1
    let p := planBlock s.nested elseBody (test.plan s test.op.condition yes p.newLabel.newLabel)
    (planBlock s.nested thenBody ((p.call (.jump done)).call (.bind yes))).call (.bind done)
  | .whileDo test body, p =>
    let again := p.labels
    let done := p.labels + 1
    let p := test.plan s test.op.condition.negate done (p.newLabel.newLabel.call (.bind again))
    ((planBlock s.nested body p).call (.jump again)).call (.bind done)

def planBlock (s : Setting) : List Stmt → Plan → Plan
  | [], p => p
  | stmt :: rest, p => planBlock s rest (stmt.plan s p)

end

/-! ## Programs -/

def planDefault (v : Variable) (p : Plan) : Plan :=
  let p :=
    match v.type with
    | .integer => p.call (.pushInt 0)
    | .text => p.call (.pushText "")
  p.call (.store v.slot v.type.kind)

/-- Declares variables and gives the scope table with them. A second declaration of a name changes nothing. -/
def planDeclarations (scope : ScopeTable) : List Declaration → Plan → ScopeTable × Plan
  | [], p => (scope, p)
  | d :: rest, p =>
    match ScopeTable.declare d.name d.type d.type.default scope with
    | .ok v scope => planDeclarations scope rest (planDefault v (p.act (.declare d.name d.type)))
    | .error (.duplicate name) scope => planDeclarations scope rest (p.act (.notice (.redeclared name d.type)))
    -- No slot is left, and the body is planned with the variables that there are.
    | .error fault scope => (scope, p.act (.fail fault))

def Program.plan (s : Setting) (program : Program) (p : Plan) : Plan :=
  let (scope, p) := planDeclarations s.scope (program.declarations.getD []) p
  planBlock { s with scope } program.body p

/-! ## Carrying out plans -/

namespace Session

def carryOut : Action → Compiling Unit
  | .call c => call c
  | .notice notice => say notice
  | .declare name type => onScope do discard (ScopeTable.declare name type type.default)
  | .remember name value => remember name value
  | .readsInput => modify fun s => { s with readsInput := true }
  | .fail fault => throw fault

def carryOutAll (actions : List Action) : Compiling Unit := actions.forM carryOut

theorem carryOutAll_append (first second : List Action) :
    carryOutAll (first ++ second) = (do carryOutAll first; carryOutAll second) :=
  List.forM_append

def setting (s : Session) : Setting := ⟨s.className, s.policy, s.scope⟩

def emptyPlan (s : Session) : Plan := ⟨s.body.labels.size, #[]⟩

end Session

end KnightCode
