import KnightCode.Proofs.Plan
import KnightCode.Proofs.Work

/-!
# The calls of a program

The calls on the method body that a program is compiled to, as lists of their own: they depend on the program, on what
the names stand for and on the number of the next label. `Expr.calls_plan` and `planBlock_plan` say that these are the
calls of the plans.
-/

namespace KnightCode

abbrev Lookup := String → Option Variable

/-! ## Expressions and tests -/

def variableCalls (find : Lookup) (name : String) : List Call :=
  match find name with
  | some v => [.load v.slot v.type.kind]
  | none => [.pushInt 0]

def Expr.labelCount : Expr → Nat
  | .number _ | .name _ => 0
  | .paren inner => inner.labelCount
  | .arithmetic _ left right => left.labelCount + right.labelCount
  | .compare _ left right => 2 + (left.labelCount + right.labelCount)

/-- The calls of an expression whose first label is `n`. -/
def Expr.calls (find : Lookup) : Expr → Nat → List Call
  | .number value, _ => [.pushInt value]
  | .name x, _ => variableCalls find x
  | .paren inner, n => inner.calls find n
  | .arithmetic op left right, n =>
    left.calls find n ++ right.calls find (n + left.labelCount) ++ [.arithmetic op]
  | .compare op left right, n =>
    [.newLabel, .newLabel] ++ left.calls find (n + 2) ++ right.calls find (n + 2 + left.labelCount) ++
      [.branch op.condition n, .pushInt 0, .jump (n + 1), .bind n, .pushInt 1, .bind (n + 1)]

def Operand.calls (find : Lookup) : Operand → List Call
  | .number value => [.pushInt value]
  | .name x => variableCalls find x

def Test.calls (find : Lookup) (t : Test) (condition : Condition) (label : Nat) : List Call :=
  t.left.calls find ++ t.right.calls find ++ [.branch condition label]

/-! ## Statements -/

def printCalls (v : Variable) : List Call :=
  [.getStatic Library.output, .load v.slot v.type.kind, .invokeVirtual (Library.print v.type)]

def convertCalls : VarType → List Call
  | .integer => [.invokeVirtual Library.trim, .invokeStatic Library.parseInt]
  | .text => []

def readCalls (className : String) (v : Variable) : List Call :=
  [.getStatic (Library.console className), .invokeVirtual Library.nextLine] ++ convertCalls v.type ++
    [.store v.slot v.type.kind]

mutual

def Stmt.labelCount (find : Lookup) : Stmt → Nat
  | .printText _ | .printName _ | .read _ | .setText .. => 0
  | .setExpr name value => if (find name).isSome then value.labelCount else 0
  | .ifThen _ thenBody => 2 + blockLabelCount find thenBody
  | .ifElse _ thenBody elseBody => 2 + (blockLabelCount find elseBody + blockLabelCount find thenBody)
  | .whileDo _ body => 2 + blockLabelCount find body

def blockLabelCount (find : Lookup) : List Stmt → Nat
  | [] => 0
  | stmt :: rest => stmt.labelCount find + blockLabelCount find rest

end

mutual

/-- The calls of a statement whose first label is `n`. Nothing is called for a variable that is not declared. -/
def Stmt.calls (className : String) (find : Lookup) : Stmt → Nat → List Call
  | .printText text, _ => [.getStatic Library.output, .pushText text, .invokeVirtual Library.printText]
  | .printName name, _ => (find name).elim [] printCalls
  | .read name, _ => (find name).elim [] (readCalls className)
  | .setText name text, _ => (find name).elim [] fun v => [.pushText text, .store v.slot v.type.kind]
  | .setExpr name value, n => (find name).elim [] fun v => value.calls find n ++ [.store v.slot v.type.kind]
  | .ifThen test thenBody, n =>
    [.newLabel, .newLabel] ++ test.calls find test.op.condition n ++ [.jump (n + 1), .bind n] ++
      blockCalls className find thenBody (n + 2) ++ [.bind (n + 1)]
  | .ifElse test thenBody elseBody, n =>
    [.newLabel, .newLabel] ++ test.calls find test.op.condition n ++ blockCalls className find elseBody (n + 2) ++
      [.jump (n + 1), .bind n] ++ blockCalls className find thenBody (n + 2 + blockLabelCount find elseBody) ++
      [.bind (n + 1)]
  | .whileDo test body, n =>
    [.newLabel, .newLabel, .bind n] ++ test.calls find test.op.condition.negate (n + 1) ++
      blockCalls className find body (n + 2) ++ [.jump n, .bind (n + 1)]

def blockCalls (className : String) (find : Lookup) : List Stmt → Nat → List Call
  | [], _ => []
  | stmt :: rest, n => stmt.calls className find n ++ blockCalls className find rest (n + stmt.labelCount find)

end

/-- An `IF` without an `ELSE` is one whose `ELSE` part is empty. -/
theorem Stmt.calls_ifThen (className : String) (find : Lookup) (test : Test) (thenBody : List Stmt) (n : Nat) :
    (Stmt.ifThen test thenBody).calls className find n = (Stmt.ifElse test thenBody []).calls className find n := by
  simp [Stmt.calls, blockCalls, blockLabelCount]

def defaultCalls (v : Variable) : List Call :=
  match v.type with
  | .integer => [.pushInt 0, .store v.slot .int]
  | .text => [.pushText "", .store v.slot .reference]

/-! ## The calls of plans -/

def Action.call? : Action → Option Call
  | .call c => some c
  | _ => none

def callsOf (actions : List Action) : List Call := actions.filterMap Action.call?

@[simp] theorem callsOf_append (first second : List Action) : callsOf (first ++ second) = callsOf first ++ callsOf second :=
  List.filterMap_append

namespace Plan

def calls (p : Plan) : List Call := callsOf p.actions.toList

@[simp] theorem calls_act_call (p : Plan) (c : Call) : (p.call c).calls = p.calls ++ [c] := by
  simp [calls, callsOf, Action.call?]

@[simp] theorem calls_newLabel (p : Plan) : p.newLabel.calls = p.calls ++ [Call.newLabel] := by
  simp [calls, callsOf, Action.call?]

theorem calls_act (p : Plan) {a : Action} (h : a.call? = none) : (p.act a).calls = p.calls := by
  simp [calls, callsOf, h]

@[simp] theorem calls_notice (p : Plan) (n : Notice) : (p.act (.notice n)).calls = p.calls := p.calls_act rfl

@[simp] theorem calls_declare (p : Plan) (name : String) (type : VarType) :
    (p.act (.declare name type)).calls = p.calls := p.calls_act rfl

@[simp] theorem calls_remember (p : Plan) (name : String) (value : Value) :
    (p.act (.remember name value)).calls = p.calls := p.calls_act rfl

@[simp] theorem calls_readsInput (p : Plan) : (p.act .readsInput).calls = p.calls := p.calls_act rfl

@[simp] theorem calls_fail (p : Plan) (f : Fault) : (p.act (.fail f)).calls = p.calls := p.calls_act rfl

end Plan

section Plans

variable (s : Setting)

@[simp] theorem Setting.undeclared_calls (name : String) (p : Plan) : (s.undeclared name p).calls = p.calls := by
  unfold Setting.undeclared
  split <;> simp

@[simp] theorem Setting.undeclared_labels (name : String) (p : Plan) : (s.undeclared name p).labels = p.labels := by
  unfold Setting.undeclared
  split <;> simp

@[simp] theorem ScopeTable.lookup?_enter (t : ScopeTable) (name : String) : t.enter.lookup? name = t.lookup? name := by
  have hempty : (Register.empty : Scope).find? name = none := by
    simp [Register.find?, Register.position?, Register.empty]
  simp [ScopeTable.lookup?, ScopeTable.enter, hempty, List.findSome?_cons]
  cases t.innermost.find? name <;> rfl

theorem Setting.lookup?_nested : s.nested.scope.lookup? = s.scope.lookup? := by
  funext name
  exact s.scope.lookup?_enter name

theorem Setting.className_nested : s.nested.className = s.className := rfl

@[simp] theorem planVariable_labels (name : String) (p : Plan) : (planVariable s name p).labels = p.labels := by
  unfold planVariable
  split <;> simp

@[simp] theorem planVariable_calls (name : String) (p : Plan) :
    (planVariable s name p).calls = p.calls ++ variableCalls s.scope.lookup? name := by
  unfold planVariable variableCalls
  split <;> simp [*]

@[simp] theorem Expr.labels_plan (e : Expr) (p : Plan) : (e.plan s p).labels = p.labels + e.labelCount := by
  induction e generalizing p with
  | number value => simp [Expr.plan, Expr.labelCount]
  | name x => simp [Expr.plan, Expr.labelCount]
  | paren inner ih => simp [Expr.plan, Expr.labelCount, ih]
  | arithmetic op left right ihl ihr => simp [Expr.plan, Expr.labelCount, ihl, ihr, Nat.add_assoc]
  | compare op left right ihl ihr => simp [Expr.plan, Expr.labelCount, ihl, ihr, Nat.add_assoc]

@[simp] theorem Expr.calls_plan (e : Expr) (p : Plan) :
    (e.plan s p).calls = p.calls ++ e.calls s.scope.lookup? p.labels := by
  induction e generalizing p with
  | number value => simp [Expr.plan, Expr.calls]
  | name x => simp [Expr.plan, Expr.calls]
  | paren inner ih => simp [Expr.plan, Expr.calls, ih]
  | arithmetic op left right ihl ihr => simp [Expr.plan, Expr.calls, ihl, ihr]
  | compare op left right ihl ihr => simp [Expr.plan, Expr.calls, ihl, ihr]

@[simp] theorem Operand.labels_plan (o : Operand) (p : Plan) : (o.plan s p).labels = p.labels := by
  cases o <;> simp [Operand.plan]

@[simp] theorem Operand.calls_plan (o : Operand) (p : Plan) :
    (o.plan s p).calls = p.calls ++ o.calls s.scope.lookup? := by
  cases o <;> simp [Operand.plan, Operand.calls]

@[simp] theorem Test.labels_plan (t : Test) (condition : Condition) (label : Nat) (p : Plan) :
    (t.plan s condition label p).labels = p.labels := by
  simp [Test.plan]

@[simp] theorem Test.calls_plan (t : Test) (condition : Condition) (label : Nat) (p : Plan) :
    (t.plan s condition label p).calls = p.calls ++ t.calls s.scope.lookup? condition label := by
  simp [Test.plan, Test.calls]

theorem planRead_calls (className : String) (v : Variable) (p : Plan) :
    (planRead className v p).calls = p.calls ++ readCalls className v := by
  unfold planRead readCalls convertCalls
  cases v.type <;> simp

theorem planRead_labels (className : String) (v : Variable) (p : Plan) :
    (planRead className v p).labels = p.labels := by
  unfold planRead
  cases v.type <;> simp

theorem planSetText_labels (v : Variable) (text : String) (p : Plan) :
    (planSetText v text p).labels = p.labels := by
  unfold planSetText
  split <;> simp

theorem planSetText_calls (v : Variable) (text : String) (p : Plan) :
    (planSetText v text p).calls = p.calls ++ [Call.pushText text, .store v.slot v.type.kind] := by
  unfold planSetText
  split <;> simp

theorem planSetExpr_labels (v : Variable) (value : Expr) (p : Plan) :
    (planSetExpr s v value p).labels = p.labels + value.labelCount := by
  unfold planSetExpr
  cases value <;> simp only <;> split <;> simp

theorem planSetExpr_calls (v : Variable) (value : Expr) (p : Plan) :
    (planSetExpr s v value p).calls =
      p.calls ++ (value.calls s.scope.lookup? p.labels ++ [Call.store v.slot v.type.kind]) := by
  unfold planSetExpr
  cases value <;> simp only <;> split <;> simp

theorem planBlock_plan (body : List Stmt) : ∀ (s : Setting) (p : Plan),
    (planBlock s body p).labels = p.labels + blockLabelCount s.scope.lookup? body ∧
      (planBlock s body p).calls = p.calls ++ blockCalls s.className s.scope.lookup? body p.labels := by
  -- For every plan so far: its labels are where those of the block begin.
  induction body using block_induction
    (P := fun stmt => ∀ s p, (stmt.plan s p).labels = p.labels + stmt.labelCount s.scope.lookup? ∧
      (stmt.plan s p).calls = p.calls ++ stmt.calls s.className s.scope.lookup? p.labels) with
  | printText text => simp [Stmt.plan, Stmt.labelCount, Stmt.calls]
  | printName name s p =>
    cases h : s.scope.lookup? name <;>
      simp [Stmt.plan, Stmt.labelCount, Stmt.calls, Setting.withVariable, h, planPrint, printCalls]
  | read name s p =>
    cases h : s.scope.lookup? name with
    | none => simp [Stmt.plan, Stmt.labelCount, Stmt.calls, Setting.withVariable, h]
    | some v => simp [Stmt.plan, Stmt.labelCount, Stmt.calls, Setting.withVariable, h, planRead_calls, planRead_labels]
  | setText name text s p =>
    cases h : s.scope.lookup? name with
    | none => simp [Stmt.plan, Stmt.labelCount, Stmt.calls, Setting.withVariable, h]
    | some v =>
      simp [Stmt.plan, Stmt.labelCount, Stmt.calls, Setting.withVariable, h, planSetText_calls, planSetText_labels]
  | setExpr name value s p =>
    cases h : s.scope.lookup? name with
    | none => simp [Stmt.plan, Stmt.labelCount, Stmt.calls, Setting.withVariable, h]
    | some v =>
      simp [Stmt.plan, Stmt.labelCount, Stmt.calls, Setting.withVariable, h, planSetExpr_calls, planSetExpr_labels]
  | ifThen test thenBody ih s p =>
    simp [Stmt.plan, Stmt.labelCount, Stmt.calls, ih, Setting.lookup?_nested, Setting.className_nested, Nat.add_assoc]
  | ifElse test thenBody elseBody ihThen ihElse s p =>
    simp [Stmt.plan, Stmt.labelCount, Stmt.calls, ihThen, ihElse, Setting.lookup?_nested, Setting.className_nested,
      Nat.add_assoc]
  | whileDo test body ih s p =>
    simp [Stmt.plan, Stmt.labelCount, Stmt.calls, ih, Setting.lookup?_nested, Setting.className_nested, Nat.add_assoc]
  | nil => simp [planBlock, blockLabelCount, blockCalls]
  | cons stmt rest ihStmt ihRest =>
    simp [planBlock, blockLabelCount, blockCalls, ihStmt, ihRest, Nat.add_assoc]

end Plans

/-! ## Sessions -/

def Action.onScope : Action → Scoping Unit
  | .declare name type => discard (ScopeTable.declare name type type.default)
  | .remember name value => ScopeTable.set name value
  | _ => pure ()

def rescope (actions : List Action) : Scoping Unit := actions.forM Action.onScope

theorem rescope_cons (a : Action) (actions : List Action) :
    rescope (a :: actions) = (do a.onScope; rescope actions) := rfl

theorem callsOf_cons (a : Action) (actions : List Action) : callsOf (a :: actions) = callsOf [a] ++ callsOf actions :=
  callsOf_append [a] actions

namespace Session

variable {s s' : Session} {actions : List Action} {fault : Fault}

theorem onBody_eq_ok {work : Build Unit} (h : onBody work s = .ok () s') :
    work s.body = .ok () s'.body ∧ s'.scope = s.scope ∧ s'.readsInput = s.readsInput := by
  obtain ⟨className, policy, body, scope, notices, readsInput⟩ := s
  simp only [onBody] at h
  cases run : work body with
  | ok _ b => simp only [run] at h; cases h; exact ⟨rfl, rfl, rfl⟩
  | error f b => simp only [run] at h; cases h

theorem onBody_eq_error {work : Build Unit} (h : onBody work s = .error fault s') :
    ∃ b, work s.body = .error fault b := by
  obtain ⟨className, policy, body, scope, notices, readsInput⟩ := s
  simp only [onBody] at h
  cases run : work body with
  | ok _ b => simp only [run] at h; cases h
  | error f b => simp only [run] at h; cases h; exact ⟨b, rfl⟩

theorem onScope_eq_ok {work : Scoping Unit} (h : onScope work s = .ok () s') :
    work s.scope = .ok () s'.scope ∧ s'.body = s.body ∧ s'.readsInput = s.readsInput := by
  obtain ⟨className, policy, body, scope, notices, readsInput⟩ := s
  simp only [onScope] at h
  cases run : work scope with
  | ok _ t => simp only [run] at h; cases h; exact ⟨rfl, rfl, rfl⟩
  | error f t => simp only [run] at h; cases h

theorem onScope_eq_error {work : Scoping Unit} (h : onScope work s = .error fault s') :
    ∃ t, work s.scope = .error fault t := by
  obtain ⟨className, policy, body, scope, notices, readsInput⟩ := s
  simp only [onScope] at h
  cases run : work scope with
  | ok _ t => simp only [run] at h; cases h
  | error f t => simp only [run] at h; cases h; exact ⟨t, rfl⟩

/-- An action does not look at the policy, nor at anything in the body that calls do not look at. -/
theorem carryOut_commutes (a : Action) (policy : UndeclaredPolicy → UndeclaredPolicy) {change : Body → Body}
    (h : ∀ c : Call, Commutes change c.perform) :
    Commutes (fun s => { s with policy := policy s.policy, body := change s.body }) (carryOut a) := by
  rintro ⟨className, _, body, scope, notices, readsInput⟩
  cases a with
  | call c =>
    simp only [carryOut, call, onBody, h c body]
    cases c.perform body <;> rfl
  | declare name type =>
    simp only [carryOut, onScope]
    cases (do discard (ScopeTable.declare name type type.default) : Scoping Unit) scope <;> rfl
  | remember name value =>
    simp only [carryOut, remember, onScope]
    cases ScopeTable.set name value scope <;> rfl
  | notice n => rfl
  | readsInput => rfl
  | fail fault => rfl

/-- What an action that succeeds does, part by part. -/
structure Did (s s' : Session) (a : Action) : Prop where
  body : Call.performAll (callsOf [a]) s.body = .ok () s'.body
  scope : a.onScope s.scope = .ok () s'.scope
  not_fail : ∀ fault, a ≠ .fail fault
  readsInput : s'.readsInput = true ↔ s.readsInput = true ∨ a = .readsInput

theorem carryOut_eq_ok {a : Action} (h : carryOut a s = .ok () s') : Did s s' a := by
  cases a with
  | call c =>
    obtain ⟨hbody, hscope, hreads⟩ := onBody_eq_ok h
    refine ⟨?_, by rw [hscope]; rfl, by simp, by simp [hreads]⟩
    simp [callsOf, Action.call?, Call.performAll, hbody]
  | notice n => cases h; exact ⟨rfl, rfl, by simp, by simp⟩
  | declare name type =>
    obtain ⟨hscope, hbody, hreads⟩ := onScope_eq_ok h
    exact ⟨by rw [hbody]; rfl, hscope, by simp, by simp [hreads]⟩
  | remember name value =>
    obtain ⟨hscope, hbody, hreads⟩ := onScope_eq_ok h
    exact ⟨by rw [hbody]; rfl, hscope, by simp, by simp [hreads]⟩
  | readsInput => cases h; exact ⟨rfl, rfl, by simp, by simp⟩
  | fail f => cases h

theorem carryOut_eq_error {a : Action} (h : carryOut a s = .error fault s') :
    (∃ b, Call.performAll (callsOf [a]) s.body = .error fault b) ∨ (∃ t, a.onScope s.scope = .error fault t) ∨
      a = .fail fault := by
  cases a with
  | call c =>
    obtain ⟨b, hb⟩ := onBody_eq_error h
    refine .inl ⟨b, ?_⟩
    have hrun : Call.performAll (callsOf [.call c]) = (do c.perform; pure ()) := rfl
    rw [hrun]
    exact bind_eq_error.2 (.inl hb)
  | declare name type => exact .inr (.inl (onScope_eq_error h))
  | remember name value => exact .inr (.inl (onScope_eq_error h))
  | fail f => cases h; exact .inr (.inr rfl)
  | notice n => cases h
  | readsInput => cases h

theorem carryOutAll_cons (a : Action) (actions : List Action) :
    carryOutAll (a :: actions) = (do carryOut a; carryOutAll actions) := rfl

theorem carryOutAll_cases (actions : List Action) (s : Session) :
    (∃ m, carryOutAll actions s = .ok () m) ∨
      ∃ ran a rest m fault r, actions = ran ++ a :: rest ∧ carryOutAll ran s = .ok () m ∧
        carryOut a m = .error fault r ∧ carryOutAll actions s = .error fault r := by
  induction actions generalizing s with
  | nil => exact .inl ⟨s, rfl⟩
  | cons a actions ih =>
    rw [carryOutAll_cons]
    cases hrun : carryOut a s with
    | error fault r =>
      exact .inr ⟨[], a, actions, s, fault, r, rfl, rfl, hrun, bind_eq_error.2 (.inl hrun)⟩
    | ok _ m =>
      rcases ih m with ⟨m', hm'⟩ | ⟨ran, b, rest, m', fault, r, rfl, hran, hb, hall⟩
      · exact .inl ⟨m', bind_eq_ok.2 ⟨_, m, hrun, hm'⟩⟩
      · exact .inr ⟨a :: ran, b, rest, m', fault, r, rfl, bind_eq_ok.2 ⟨_, m, hrun, hran⟩, hb,
          bind_eq_error.2 (.inr ⟨_, m, hrun, hall⟩)⟩

theorem carryOutAll_eq_ok (h : carryOutAll actions s = .ok () s') :
    Call.performAll (callsOf actions) s.body = .ok () s'.body ∧ rescope actions s.scope = .ok () s'.scope ∧
      (∀ fault, .fail fault ∉ actions) ∧ (s'.readsInput = true ↔ s.readsInput = true ∨ .readsInput ∈ actions) := by
  induction actions generalizing s with
  | nil => cases h; exact ⟨rfl, rfl, by simp, by simp⟩
  | cons a actions ih =>
    rw [carryOutAll_cons] at h
    obtain ⟨_, m, ha, hrest⟩ := bind_eq_ok.1 h
    have first := carryOut_eq_ok ha
    obtain ⟨hbody, hscope, hfail, hreads⟩ := ih hrest
    rw [callsOf_cons, Call.performAll_append, rescope_cons]
    refine ⟨bind_eq_ok.2 ⟨_, _, first.body, hbody⟩, bind_eq_ok.2 ⟨_, _, first.scope, hscope⟩, ?_, ?_⟩
    · intro fault hmem
      rcases List.mem_cons.1 hmem with heq | hmem
      · exact first.not_fail fault heq.symm
      · exact hfail fault hmem
    · rw [hreads, first.readsInput, List.mem_cons, or_assoc, eq_comm (a := a)]

theorem carryOutAll_eq_error (h : carryOutAll actions s = .error fault s') :
    (∃ b, Call.performAll (callsOf actions) s.body = .error fault b) ∨
      (∃ t, rescope actions s.scope = .error fault t) ∨
      ∃ before after, actions = before ++ .fail fault :: after ∧ ∀ f, .fail f ∉ before := by
  -- On the actions: the first fails, or it is done and what fails comes later.
  induction actions generalizing s with
  | nil => cases h
  | cons a actions ih =>
    rw [carryOutAll_cons] at h
    rw [callsOf_cons, Call.performAll_append, rescope_cons]
    rcases bind_eq_error.1 h with ha | ⟨_, m, ha, hrest⟩
    · rcases carryOut_eq_error ha with ⟨b, hb⟩ | ⟨t, ht⟩ | rfl
      · exact .inl ⟨b, bind_eq_error.2 (.inl hb)⟩
      · exact .inr (.inl ⟨t, bind_eq_error.2 (.inl ht)⟩)
      · exact .inr (.inr ⟨[], actions, rfl, by simp⟩)
    · have first := carryOut_eq_ok ha
      rcases ih hrest with ⟨b, hb⟩ | ⟨t, ht⟩ | ⟨before, after, rfl, hbefore⟩
      · exact .inl ⟨b, bind_eq_error.2 (.inr ⟨_, _, first.body, hb⟩)⟩
      · exact .inr (.inl ⟨t, bind_eq_error.2 (.inr ⟨_, _, first.scope, ht⟩)⟩)
      · refine .inr (.inr ⟨a :: before, after, rfl, ?_⟩)
        intro f hmem
        rcases List.mem_cons.1 hmem with heq | hmem
        · exact first.not_fail f heq.symm
        · exact hbefore f hmem

end Session

end KnightCode
