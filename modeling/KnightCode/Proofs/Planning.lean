import KnightCode.Proofs.Attempts
import KnightCode.Proofs.Layout

/-!
# Compiling by the plan

Compiling looks at the session at every step, and a block within a block enters a scope and leaves it again. The plan of
a program is made from the first session alone. `compileProgram_planned` says that both come to the same in every
session, be it that they fail: what compiling changes in the scopes on its way are values, which no plan looks at.
-/

namespace KnightCode

theorem Expr.type_eq {t t' : ScopeTable} (h : t.SameButValues t') (e : Expr) : e.type t' = e.type t := by
  induction e with
  | name x =>
    have htype := congrArg (Option.map (·.2.1)) (h.lookup? x)
    simp only [Option.map_map] at htype
    exact congrArg (Option.getD · VarType.integer) htype
  | paren inner ih => exact ih
  | _ => rfl

namespace Session

/-! ## Scopes of their own -/

def entered (s : Session) : Session := { s with scope := s.scope.enter }

def left (s : Session) : Session := { s with scope := s.scope.exit }

theorem inNewScope_run (work : Compiling Unit) (s : Session) :
    inNewScope work s = withState left (work s.entered) := by
  have hrun : inNewScope work s = (do try work finally onScope (modify ScopeTable.exit)) s.entered := rfl
  rw [hrun]
  simp only [tryFinally, tryFinally', Functor.map, EStateM.map]
  cases work s.entered <;> rfl

theorem withState_left_entered {α : Type} (r : EStateM.Result Fault Session α) :
    withState left (withState entered r) = r := by
  cases r <;> rfl

end Session

/-- A value is remembered in the same scope from within a new one. -/
theorem ScopeTable.set_enter (name : String) (value : Value) : Commutes enter (set name value) := by
  intro t
  have hempty : (Register.empty : Scope).position? name = none := by
    simp [Register.position?, Register.empty]
  simp only [set, enter, hempty, setFirst?]
  cases t.innermost.position? name with
  | some i => rfl
  | none => cases setFirst? name value t.outer <;> rfl

namespace Session

theorem carryOut_entered {a : Action} (h : ∀ name type, a ≠ .declare name type) : Commutes entered (carryOut a) := by
  rintro ⟨className, policy, body, scope, notices, readsInput⟩
  cases a with
  | declare name type => exact absurd rfl (h name type)
  | call c =>
    simp only [carryOut, call, onBody, entered]
    cases c.perform body <;> rfl
  | remember name value =>
    simp only [carryOut, remember, onScope, entered, ScopeTable.set_enter name value scope]
    cases ScopeTable.set name value scope <;> rfl
  | notice n => rfl
  | readsInput => rfl
  | fail fault => rfl

/-! ## Work and plans -/

/-- The session is as a plan takes it to be: it has the setting but for the values of the variables, and as many labels
as are planned. -/
structure At (S : Setting) (p : Plan) (s : Session) : Prop where
  className : s.className = S.className
  policy : s.policy = S.policy
  scope : S.scope.SameButValues s.scope
  labels : s.body.labels.size = p.labels

/-- Where the first plan has got to, the work does what the second plan has beyond the first one. -/
def Enacts (S : Setting) (p : Plan) (work : Compiling Unit) (S' : Setting) (q : Plan) : Prop :=
  ∃ added, q.actions.toList = p.actions.toList ++ added ∧
    ∀ s, At S p s → work s = carryOutAll added s ∧ ∀ m, work s = .ok () m → At S' q m

theorem at_start (s : Session) : At s.setting s.emptyPlan s := ⟨rfl, rfl, .refl _, rfl⟩

theorem Enacts.run {work : Compiling Unit} {s : Session} {S' : Setting} {q : Plan}
    (h : Enacts s.setting s.emptyPlan work S' q) : work s = carryOutAll q.actions.toList s := by
  obtain ⟨added, hadded, hrun⟩ := h
  rw [(hrun s s.at_start).1, hadded]
  rfl

section Laws

variable {S S' S'' : Setting} {p q r : Plan} {work work' : Compiling Unit}

namespace Enacts

theorem refl (S : Setting) (p : Plan) : Enacts S p (pure ()) S p := by
  refine ⟨[], by simp, fun s hs => ⟨rfl, ?_⟩⟩
  intro m h
  cases h
  exact hs

theorem seq (h : Enacts S p work S' q) (h' : Enacts S' q work' S'' r) : Enacts S p (do work; work') S'' r := by
  obtain ⟨first, hfirst, hrun⟩ := h
  obtain ⟨second, hsecond, hrun'⟩ := h'
  refine ⟨first ++ second, by rw [hsecond, hfirst, List.append_assoc], fun s hs => ⟨?_, ?_⟩⟩
  · rw [carryOutAll_append]
    exact bind_run_congr (hrun s hs).1 fun _ m hm => (hrun' m ((hrun s hs).2 m hm)).1
  · intro m hm
    obtain ⟨_, n, hn, hm⟩ := bind_eq_ok.1 hm
    exact (hrun' n ((hrun s hs).2 n hn)).2 m hm

theorem congr (h : Enacts S p work S' q) (hsame : ∀ s, At S p s → work' s = work s) : Enacts S p work' S' q := by
  obtain ⟨added, hadded, hrun⟩ := h
  refine ⟨added, hadded, fun s hs => ?_⟩
  rw [hsame s hs]
  exact hrun s hs

theorem after_fail {fault : Fault} (h : Enacts S (p.act (.fail fault)) work S' q)
    (hfails : ∀ s, At S p s → work' s = .error fault s) : Enacts S p work' S' q := by
  obtain ⟨added, hadded, -⟩ := h
  refine ⟨.fail fault :: added, by simp [hadded], fun s hs => ?_⟩
  rw [hfails s hs]
  exact ⟨rfl, by simp⟩

end Enacts

/-! ## The parts of the work -/

theorem enacts_action {a : Action} (h : ∀ s m, At S p s → carryOut a s = .ok () m → At S' (p.act a) m) :
    Enacts S p (carryOut a) S' (p.act a) := by
  refine ⟨[a], by simp, fun s hs => ⟨?_, fun m => h s m hs⟩⟩
  have hrun : carryOutAll [a] s = (do carryOut a; pure ()) s := rfl
  rw [hrun, bind_pure_unit]

theorem enacts_call {c : Call} (hc : c ≠ .newLabel) : Enacts S p (call c) S (p.call c) := by
  refine enacts_action (a := .call c) fun s m hs hm => ?_
  obtain ⟨className, policy, body, scope, notices, readsInput⟩ := s
  simp only [carryOut, call, onBody] at hm
  cases hrun : c.perform body with
  | ok _ b =>
    rw [hrun] at hm
    cases hm
    exact ⟨hs.className, hs.policy, hs.scope, (Call.labels_size_of_ok hc hrun).trans hs.labels⟩
  | error fault b =>
    rw [hrun] at hm
    cases hm

theorem enacts_say (n : Notice) : Enacts S p (say n) S (p.act (.notice n)) := by
  refine enacts_action (a := .notice n) fun s m hs hm => ?_
  cases hm
  exact ⟨hs.className, hs.policy, hs.scope, hs.labels⟩

theorem enacts_readsInput : Enacts S p (modify ({ · with readsInput := true })) S (p.act .readsInput) := by
  refine enacts_action (a := .readsInput) fun s m hs hm => ?_
  cases hm
  exact ⟨hs.className, hs.policy, hs.scope, hs.labels⟩

theorem enacts_remember (name : String) (value : Value) :
    Enacts S p (remember name value) S (p.act (.remember name value)) := by
  refine enacts_action (a := .remember name value) fun s m hs hm => ?_
  obtain ⟨className, policy, body, scope, notices, readsInput⟩ := s
  simp only [carryOut, remember, onScope] at hm
  rcases ScopeTable.set_cases name value scope with ⟨-, t, hset, hsame⟩ | ⟨-, hset⟩
  · rw [hset] at hm
    cases hm
    exact ⟨hs.className, hs.policy, hs.scope.trans hsame, hs.labels⟩
  · rw [hset] at hm
    cases hm

theorem enacts_newLabel {next : Nat → Compiling Unit} (h : Enacts S p.newLabel (next p.labels) S' q) :
    Enacts S p (newLabel >>= next) S' q := by
  have hmade : Enacts S p (call .newLabel) S p.newLabel := by
    refine ⟨[.call .newLabel], by simp, fun s hs => ⟨rfl, ?_⟩⟩
    intro m hm
    cases hm
    refine ⟨hs.className, hs.policy, hs.scope, ?_⟩
    rw [Plan.labels_newLabel, ← hs.labels]
    exact Array.size_push _
  refine (hmade.seq h).congr fun s hs => ?_
  rw [← hs.labels]
  rfl

theorem resolve_declared {s : Session} {name : String} {v : Variable} (h : s.scope.lookup? name = some v) :
    resolve name s = .ok (some (v.slot, v.type)) s := by
  unfold resolve
  rw [get_bind_run, h]
  rfl

theorem resolve_undeclared {s : Session} {name : String} (h : s.scope.lookup? name = none) :
    resolve name s =
      match s.policy with
      | .fatal => .error (.undeclared name) s
      | .report => (do say (.undeclared name); return none) s := by
  unfold resolve
  rw [get_bind_run, h]
  dsimp only
  rw [get_bind_run]
  cases s.policy <;> rfl

theorem enacts_resolve {name : String} {next : Option (UInt16 × VarType) → Compiling Unit}
    (hsome : ∀ v, S.scope.lookup? name = some v → Enacts S p (next (some (v.slot, v.type))) S' q)
    (hnone : S.scope.lookup? name = none → Enacts S (S.undeclared name p) (next none) S' q) :
    Enacts S p (resolve name >>= next) S' q := by
  cases hlookup : S.scope.lookup? name with
  | some v =>
    -- The session's variable may have another value, but the slot and the type are the same.
    refine (hsome v hlookup).congr fun s hs => ?_
    have hfixed := hs.scope.lookup? name
    rw [hlookup, Option.map_some, Option.map_eq_some_iff] at hfixed
    obtain ⟨v', hv', hfixed⟩ := hfixed
    have hplace : (v'.slot, v'.type) = (v.slot, v.type) :=
      congrArg (fun f : String × VarType × UInt16 => (f.2.2, f.2.1)) hfixed
    rw [← hplace]
    exact bind_run_ok (resolve_declared hv')
  | none =>
    have hundeclared : ∀ s, At S p s → s.scope.lookup? name = none := by
      intro s hs
      have hfixed := hs.scope.lookup? name
      rwa [hlookup, Option.map_none, Option.map_eq_none_iff] at hfixed
    have hrest := hnone hlookup
    unfold Setting.undeclared at hrest
    cases hpolicy : S.policy with
    | fatal =>
      rw [hpolicy] at hrest
      refine hrest.after_fail fun s hs => bind_eq_error.2 (.inl ?_)
      rw [resolve_undeclared (hundeclared s hs), hs.policy, hpolicy]
    | report =>
      rw [hpolicy] at hrest
      refine ((enacts_say _).seq hrest).congr fun s hs => ?_
      refine bind_run_ok (a := none) ?_
      rw [resolve_undeclared (hundeclared s hs), hs.policy, hpolicy]
      rfl

/-- A block within a block does to the scopes around its own what it would do without a scope of its own. -/
theorem enacts_nested {body : List Stmt} (h : Enacts S.nested p (compileBlock body) S.nested (planBlock S.nested body p)) :
    Enacts S p (inNewScope (compileBlock body)) S (planBlock S.nested body p) := by
  obtain ⟨added, hadded, hrun⟩ := h
  obtain ⟨added', hadded', hallowed⟩ := Setting.leads_block body S.nested p p (.refl p)
  obtain rfl : added' = added := List.append_cancel_left (hadded'.symm.trans hadded)
  have hcommutes : Commutes entered (carryOutAll added') := by
    refine .forM fun a ha => carryOut_entered ?_
    rintro name type rfl
    exact hallowed _ ha
  refine ⟨added', hadded, fun s hs => ?_⟩
  obtain ⟨hwork, hat⟩ := hrun s.entered ⟨hs.className, hs.policy, hs.scope.enter, hs.labels⟩
  rw [hcommutes s] at hwork
  rw [inNewScope_run, hwork, withState_left_entered]
  refine ⟨rfl, ?_⟩
  intro m hm
  rw [hm] at hwork
  have hentered := hat m.entered hwork
  exact ⟨hentered.className, hentered.policy, hentered.scope.exit, hentered.labels⟩

/-! ## Expressions and tests -/

theorem enacts_loadVariable (name : String) : Enacts S p (loadVariable name) S (planVariable S name p) := by
  unfold planVariable
  refine enacts_resolve ?_ ?_
  · intro v hv
    rw [hv]
    exact enacts_call (by simp)
  · intro hnone
    rw [hnone]
    exact enacts_call (by simp)

theorem enacts_expr (e : Expr) : ∀ p, Enacts S p (compileExpr e) S (e.plan S p) := by
  induction e with
  | number value => exact fun p => enacts_call (by simp)
  | name x => exact fun p => enacts_loadVariable x
  | paren inner ih => exact ih
  | arithmetic op left right ihl ihr =>
    intro p
    exact (ihl p).seq ((ihr _).seq (enacts_call (by simp)))
  | compare op left right ihl ihr =>
    intro p
    refine enacts_newLabel (enacts_newLabel ((ihl _).seq ((ihr _).seq ?_)))
    exact (enacts_call (by simp)).seq ((enacts_call (by simp)).seq ((enacts_call (by simp)).seq
      ((enacts_call (by simp)).seq ((enacts_call (by simp)).seq (enacts_call (by simp))))))

theorem enacts_operand (o : Operand) : Enacts S p (loadOperand o) S (o.plan S p) := by
  cases o with
  | number value => exact enacts_call (by simp)
  | name x => exact enacts_loadVariable x

theorem enacts_test (t : Test) (condition : Condition) (label : Nat) :
    Enacts S p (compileTest t condition label) S (t.plan S condition label p) :=
  (enacts_operand t.left).seq ((enacts_operand t.right).seq (enacts_call (by simp)))

/-! ## Statements -/

theorem enacts_withVariable {name : String} {work : UInt16 → VarType → Compiling Unit} {next : Variable → Plan}
    (h : ∀ v, v.name = name → Enacts S p (work v.slot v.type) S (next v)) :
    Enacts S p (withVariable name work) S (S.withVariable name p next) := by
  unfold Setting.withVariable
  refine enacts_resolve ?_ ?_
  · intro v hv
    rw [hv]
    exact h v (ScopeTable.name_of_lookup? hv)
  · intro hnone
    rw [hnone]
    exact .refl S _

theorem enacts_convertLine (type : VarType) :
    Enacts S p (convertLine type) S
      (match type with
        | .integer => (p.call (.invokeVirtual Library.trim)).call (.invokeStatic Library.parseInt)
        | .text => p) := by
  cases type with
  | integer => exact (enacts_call (by simp)).seq (enacts_call (by simp))
  | text => exact .refl S p

theorem enacts_readVariable (v : Variable) :
    Enacts S p (readVariable v.slot v.type) S (planRead S.className v p) := by
  have hread : Enacts S p (do
      modify ({ · with readsInput := true })
      call (.getStatic (Library.console S.className))
      call (.invokeVirtual Library.nextLine)
      convertLine v.type
      call (.store v.slot v.type.kind)) S (planRead S.className v p) :=
    enacts_readsInput.seq ((enacts_call (by simp)).seq ((enacts_call (by simp)).seq
      ((enacts_convertLine v.type).seq (enacts_call (by simp)))))
  refine hread.congr fun s hs => ?_
  rw [← hs.className]
  rfl

theorem enacts_assignText {name : String} {v : Variable} (hname : v.name = name) (text : String) :
    Enacts S p (assignText name text v.slot v.type) S (planSetText v text p) := by
  have hstored : ∀ p', Enacts S p'
      (do call (.pushText text); call (.store v.slot v.type.kind); remember name (.text text)) S
      (((p'.call (.pushText text)).call (.store v.slot v.type.kind)).act (.remember name (.text text))) :=
    fun p' => (enacts_call (by simp)).seq ((enacts_call (by simp)).seq (enacts_remember _ _))
  unfold assignText planSetText
  rw [hname]
  by_cases htype : v.type ≠ .text
  · simp only [if_pos htype]
    exact (enacts_say _).seq (hstored _)
  · simp only [if_neg htype]
    exact hstored p

theorem enacts_checkType (name : String) (valueType type : VarType) :
    Enacts S p (checkType name valueType type) S
      (if valueType ≠ type then p.act (.notice (.typesDiffer valueType type name)) else p) := by
  unfold checkType
  split
  · exact enacts_say _
  · exact .refl S p

theorem enacts_assignExpr {name : String} {v : Variable} (hname : v.name = name) (value : Expr) :
    Enacts S p (assignExpr name value v.slot v.type) S (planSetExpr S v value p) := by
  have hassign : Enacts S p (do
      checkType name (value.type S.scope) v.type
      compileExpr value
      call (.store v.slot v.type.kind)
      rememberLiteral name value) S (planSetExpr S v value p) := by
    refine (enacts_checkType name (value.type S.scope) v.type).seq ((enacts_expr value _).seq
      ((enacts_call (c := .store v.slot v.type.kind) (by simp)).seq ?_))
    unfold planSetExpr
    rw [hname]
    cases value with
    | number n => exact enacts_remember name (.integer n)
    | _ => exact .refl S _
  refine hassign.congr fun s hs => ?_
  rw [← Expr.type_eq hs.scope]
  rfl

theorem enacts_block (body : List Stmt) : ∀ S p, Enacts S p (compileBlock body) S (planBlock S body p) := by
  induction body using block_induction
    (P := fun stmt => ∀ S p, Enacts S p (compileStmt stmt) S (stmt.plan S p)) with
  | printText text S p => exact (enacts_call (by simp)).seq ((enacts_call (by simp)).seq (enacts_call (by simp)))
  | printName name S p =>
    exact enacts_withVariable fun v _ =>
      (enacts_call (by simp)).seq ((enacts_call (by simp)).seq (enacts_call (by simp)))
  | read name S p => exact enacts_withVariable fun v _ => enacts_readVariable v
  | setText name text S p => exact enacts_withVariable fun v hname => enacts_assignText hname text
  | setExpr name value S p => exact enacts_withVariable fun v hname => enacts_assignExpr hname value
  | ifThen test thenBody ih S p =>
    refine enacts_newLabel (enacts_newLabel ((enacts_test test _ _).seq ?_))
    refine (enacts_call (by simp)).seq ((enacts_call (by simp)).seq ?_)
    exact (enacts_nested (ih S.nested _)).seq (enacts_call (by simp))
  | ifElse test thenBody elseBody ihThen ihElse S p =>
    refine enacts_newLabel (enacts_newLabel ((enacts_test test _ _).seq ?_))
    refine (enacts_nested (ihElse S.nested _)).seq ?_
    refine (enacts_call (by simp)).seq ((enacts_call (by simp)).seq ?_)
    exact (enacts_nested (ihThen S.nested _)).seq (enacts_call (by simp))
  | whileDo test body ih S p =>
    refine enacts_newLabel (enacts_newLabel ((enacts_call (by simp)).seq ((enacts_test test _ _).seq ?_)))
    exact (enacts_nested (ih S.nested _)).seq ((enacts_call (by simp)).seq (enacts_call (by simp)))
  | nil => exact Enacts.refl
  | cons stmt rest ihStmt ihRest => exact fun S p => (ihStmt S p).seq (ihRest S _)

/-! ## Declarations -/

theorem planDefault_eq (v : Variable) (p : Plan) :
    planDefault v p = (p.call (pushDefault v.type)).call (.store v.slot v.type.kind) := by
  unfold planDefault
  cases v.type <;> rfl

end Laws

section Declarations

variable {s : Session} {d : Declaration}

theorem declare_run (d : Declaration) (s : Session) :
    declare d s =
      match ScopeTable.declare d.name d.type d.type.default s.scope with
      | .ok v t => .ok (some v) { s with scope := t }
      | .error (.duplicate name) t => (do say (.redeclared name d.type); return none) { s with scope := t }
      | .error fault t => .error fault { s with scope := t } := by
  simp only [declare, tryCatch, tryCatchThe, MonadExceptOf.tryCatch, EStateM.tryCatch, Functor.map, EStateM.map, onScope]
  cases ScopeTable.declare d.name d.type d.type.default s.scope with
  | ok v t => rfl
  | error fault t => cases fault <;> rfl

theorem compileDeclaration_full (full : s.scope.nextSlot = 65535) :
    compileDeclaration d s = .error (.code (.tooManyVariables d.name)) s := by
  have hdeclare : declare d s = .error (.code (.tooManyVariables d.name)) s := by
    rw [declare_run, ScopeTable.declare_full full]
  exact bind_eq_error.2 (.inl hdeclare)

theorem compileDeclaration_again (room : s.scope.nextSlot ≠ 65535) (again : d.name ∈ s.scope.known) :
    compileDeclaration d s = say (.redeclared d.name d.type) s := by
  have hdeclare : declare d s = (do say (.redeclared d.name d.type); return none) s := by
    rw [declare_run, ScopeTable.declare_again room again]
  exact bind_run_ok hdeclare

theorem compileDeclaration_fresh (room : s.scope.nextSlot ≠ 65535) (fresh : d.name ∉ s.scope.known) :
    compileDeclaration d s =
      (do call (pushDefault d.type); call (.store s.scope.nextSlot d.type.kind))
        { s with scope := s.scope.extended (d.variable s.scope.nextSlot) } := by
  have hdeclare : declare d s = .ok (some (d.variable s.scope.nextSlot))
      { s with scope := s.scope.extended (d.variable s.scope.nextSlot) } := by
    rw [declare_run, ScopeTable.declare_fresh room fresh]
  exact bind_run_ok hdeclare

theorem carryOut_declare_fresh (room : s.scope.nextSlot ≠ 65535) (fresh : d.name ∉ s.scope.known) :
    carryOut (.declare d.name d.type) s =
      .ok () { s with scope := s.scope.extended (d.variable s.scope.nextSlot) } := by
  have hdeclare : (discard (ScopeTable.declare d.name d.type d.type.default) : Scoping Unit) s.scope =
      .ok () (s.scope.extended (d.variable s.scope.nextSlot)) :=
    bind_eq_ok.2 ⟨_, _, ScopeTable.declare_fresh room fresh, rfl⟩
  simp only [carryOut, onScope, hdeclare]

end Declarations

theorem enacts_declaration_fresh {S : Setting} {d : Declaration} (room : S.scope.nextSlot ≠ 65535)
    (fresh : d.name ∉ S.scope.known) (p : Plan) :
    let v := d.variable S.scope.nextSlot
    Enacts S p (compileDeclaration d) { S with scope := S.scope.extended v }
      (planDefault v (p.act (.declare d.name d.type))) := by
  intro v
  have hdeclare : ∀ s, At S p s →
      carryOut (.declare d.name d.type) s = .ok () { s with scope := s.scope.extended v } ∧
      compileDeclaration d s = (do call (pushDefault d.type); call (.store v.slot d.type.kind))
        { s with scope := s.scope.extended v } := by
    intro s hs
    have hnext := hs.scope.nextSlot
    have hknown := hs.scope.known
    rw [← hnext] at room
    rw [← hknown] at fresh
    have hslot : v = d.variable s.scope.nextSlot := by rw [hnext]
    rw [hslot]
    exact ⟨carryOut_declare_fresh room fresh, compileDeclaration_fresh room fresh⟩
  have hdeclared : Enacts S p (carryOut (.declare d.name d.type)) { S with scope := S.scope.extended v }
      (p.act (.declare d.name d.type)) := by
    refine enacts_action fun s m hs hm => ?_
    rw [(hdeclare s hs).1] at hm
    cases hm
    exact ⟨hs.className, hs.policy, hs.scope.extended v, hs.labels⟩
  have hpush : pushDefault d.type ≠ .newLabel := by cases d.type <;> simp [pushDefault]
  rw [planDefault_eq]
  refine (hdeclared.seq ((enacts_call hpush).seq (enacts_call (by simp)))).congr fun s hs => ?_
  rw [(hdeclare s hs).2, eq_comm]
  exact bind_run_ok (hdeclare s hs).1

theorem enacts_declarations (decls : List Declaration) : ∀ S p,
    Enacts S p (decls.forM compileDeclaration) { S with scope := (planDeclarations S.scope decls p).1 }
      (planDeclarations S.scope decls p).2 := by
  induction decls with
  | nil => exact Enacts.refl
  | cons d decls ih =>
    intro S p
    by_cases full : S.scope.nextSlot = 65535
    · have hplan : planDeclarations S.scope (d :: decls) p =
          (S.scope, p.act (.fail (.code (.tooManyVariables d.name)))) := by
        rw [planDeclarations, ScopeTable.declare_full full]
      rw [hplan]
      refine (Enacts.refl S _).after_fail fun s hs => bind_eq_error.2 (.inl ?_)
      exact compileDeclaration_full (hs.scope.nextSlot.trans full)
    by_cases again : d.name ∈ S.scope.known
    · have hplan : planDeclarations S.scope (d :: decls) p =
          planDeclarations S.scope decls (p.act (.notice (.redeclared d.name d.type))) := by
        rw [planDeclarations, ScopeTable.declare_again full again]
      rw [hplan]
      refine ((enacts_say _).seq (ih S _)).congr fun s hs => bind_run_congr ?_ fun _ _ _ => rfl
      exact compileDeclaration_again (hs.scope.nextSlot ▸ full) (hs.scope.known ▸ again)
    · have hplan : planDeclarations S.scope (d :: decls) p =
          planDeclarations (S.scope.extended (d.variable S.scope.nextSlot)) decls
            (planDefault (d.variable S.scope.nextSlot) (p.act (.declare d.name d.type))) := by
        rw [planDeclarations, ScopeTable.declare_fresh full again]
      rw [hplan]
      exact (enacts_declaration_fresh full again p).seq (ih _ _)

/-! ## Programs -/

theorem compileExpr_planned (e : Expr) (s : Session) :
    compileExpr e s = carryOutAll (e.plan s.setting s.emptyPlan).actions.toList s :=
  (enacts_expr e s.emptyPlan).run

theorem compileBlock_planned (body : List Stmt) (s : Session) :
    compileBlock body s = carryOutAll (planBlock s.setting body s.emptyPlan).actions.toList s :=
  (enacts_block body s.setting s.emptyPlan).run

/-- Compiling a program is carrying out its plan. -/
theorem compileProgram_planned (program : Program) (s : Session) :
    compileProgram program s = carryOutAll (program.plan s.setting s.emptyPlan).actions.toList s :=
  ((enacts_declarations _ s.setting s.emptyPlan).seq (enacts_block program.body _ _)).run

end Session

end KnightCode
