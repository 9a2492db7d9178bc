import KnightCode.Proofs.Redeclarations

/-!
# What is noted about a program

The notices of a program can be told from its text alone, by a walk over the declarations and then over the statements
in the order in which they are compiled. Compiling gives these notices and no others, whatever the body and the constant
pool are like, and if it fails it has given the first of them.
-/

namespace KnightCode

/-! ## The walk -/

def undeclaredAmong (types : Typing) (names : List String) : List Notice :=
  (names.filter fun x => (types x).isNone).map .undeclared

theorem undeclaredAmong_append (types : Typing) (first second : List String) :
    undeclaredAmong types (first ++ second) = undeclaredAmong types first ++ undeclaredAmong types second := by
  simp [undeclaredAmong]

/-- A name, in parentheses or not, has its declared type. Everything else is an integer, also a name that is not
declared. -/
def Expr.valueType (types : Typing) : Expr → VarType
  | .name x => (types x).getD .integer
  | .paren inner => inner.valueType types
  | _ => .integer

mutual

/-- A variable that is to be printed, read or set is looked at first, and if it is not declared nothing else is. The
`ELSE` part comes before the `THEN` part. -/
def Stmt.remarks (types : Typing) : Stmt → List Notice
  | .printText _ => []
  | .printName x | .read x => (types x).elim [.undeclared x] fun _ => []
  | .setText x _ => (types x).elim [.undeclared x] fun type => if type = .text then [] else [.textAssigned type x]
  | .setExpr x value => (types x).elim [.undeclared x] fun type =>
      (if value.valueType types = type then [] else [.typesDiffer (value.valueType types) type x]) ++
        undeclaredAmong types value.names
  | .ifThen test thenBody => undeclaredAmong types test.names ++ blockRemarks types thenBody
  | .ifElse test thenBody elseBody =>
    undeclaredAmong types test.names ++ blockRemarks types elseBody ++ blockRemarks types thenBody
  | .whileDo test body => undeclaredAmong types test.names ++ blockRemarks types body

def blockRemarks (types : Typing) : List Stmt → List Notice
  | [] => []
  | stmt :: rest => stmt.remarks types ++ blockRemarks types rest

end

/-- The notices of a program: the names that are declared again, then what there is to say about the statements. -/
def Program.remarks (p : Program) : List Notice :=
  (repeated [] (p.declarations.getD [])).map Declaration.notice ++ blockRemarks p.typing p.body

/-! ## What plans say -/

/-- What an action tells of, be it as a notice or because it is fatal. -/
def Action.said : Action → List Notice
  | .notice n => [n]
  | .fail (.undeclared name) => [.undeclared name]
  | _ => []

theorem Action.noted_eq_said {actions : List Action} (h : ∀ fault, .fail fault ∉ actions) :
    actions.flatMap Action.noted = actions.flatMap Action.said := by
  apply List.flatMap_congr
  intro a ha
  cases a with
  | fail fault => exact absurd ha (h fault)
  | _ => rfl

namespace Plan

def said (p : Plan) : List Notice := p.actions.toList.flatMap Action.said

@[simp] theorem said_act (p : Plan) (a : Action) : (p.act a).said = p.said ++ a.said := by simp [said]

@[simp] theorem said_call (p : Plan) (c : Call) : (p.call c).said = p.said := by simp [said, Action.said]

@[simp] theorem said_newLabel (p : Plan) : p.newLabel.said = p.said := by simp [said, Action.said]

end Plan

def Setting.types (s : Setting) : Typing := Lookup.typing s.scope.lookup?

section Statements

variable {s : Setting}

theorem Setting.types_nested : s.nested.types = s.types := by rw [types, lookup?_nested, types]

theorem Setting.types_eq_some {x : String} {v : Variable} (h : s.scope.lookup? x = some v) : s.types x = some v.type := by
  rw [types, Lookup.typing, h]
  rfl

theorem Setting.types_eq_none {x : String} (h : s.scope.lookup? x = none) : s.types x = none := by
  rw [types, Lookup.typing, h]
  rfl

@[simp] theorem Setting.said_undeclared (x : String) (p : Plan) :
    (s.undeclared x p).said = p.said ++ [.undeclared x] := by
  unfold undeclared
  cases s.policy <;> simp [Action.said]

theorem said_planVariable (x : String) (p : Plan) :
    (planVariable s x p).said = p.said ++ undeclaredAmong s.types [x] := by
  unfold planVariable undeclaredAmong
  cases h : s.scope.lookup? x with
  | none => simp [Setting.types_eq_none h]
  | some v => simp [Setting.types_eq_some h]

theorem Expr.said_plan (e : Expr) (p : Plan) : (e.plan s p).said = p.said ++ undeclaredAmong s.types e.names := by
  induction e generalizing p with
  | number value => simp [Expr.plan, Expr.names, undeclaredAmong]
  | name x => exact said_planVariable x p
  | paren inner ih => exact ih p
  | arithmetic op left right ihLeft ihRight => simp [Expr.plan, Expr.names, ihLeft, ihRight, undeclaredAmong_append]
  | compare op left right ihLeft ihRight => simp [Expr.plan, Expr.names, ihLeft, ihRight, undeclaredAmong_append]

theorem Operand.said_plan (o : Operand) (p : Plan) :
    (o.plan s p).said = p.said ++ undeclaredAmong s.types o.names := by
  cases o with
  | number value => simp [Operand.plan, Operand.names, undeclaredAmong]
  | name x => exact said_planVariable x p

theorem Test.said_plan (t : Test) (condition : Condition) (label : Nat) (p : Plan) :
    (t.plan s condition label p).said = p.said ++ undeclaredAmong s.types t.names := by
  simp [Test.plan, Test.names, Operand.said_plan, undeclaredAmong_append]

theorem Expr.type_eq_valueType (e : Expr) : e.type s.scope = e.valueType s.types := by
  induction e with
  | name x => rfl
  | paren inner ih => exact ih
  | _ => rfl

theorem Setting.said_withVariable {x : String} {p : Plan} {next : Variable → Plan} {rest : VarType → List Notice}
    (hnext : ∀ v, v.name = x → (next v).said = p.said ++ rest v.type) :
    (s.withVariable x p next).said = p.said ++ (s.types x).elim [.undeclared x] rest := by
  unfold withVariable
  cases h : s.scope.lookup? x with
  | none => simp [types_eq_none h]
  | some v => simp [types_eq_some h, hnext v (ScopeTable.name_of_lookup? h)]

theorem said_planPrint (v : Variable) (p : Plan) : (planPrint v p).said = p.said := by simp [planPrint]

theorem said_planRead (className : String) (v : Variable) (p : Plan) : (planRead className v p).said = p.said := by
  unfold planRead
  cases v.type <;> simp [Action.said]

theorem said_planSetText (v : Variable) (text : String) (p : Plan) :
    (planSetText v text p).said = p.said ++ if v.type = .text then [] else [.textAssigned v.type v.name] := by
  unfold planSetText
  by_cases h : v.type = .text <;> simp [h, Action.said]

theorem said_planSetExpr (v : Variable) (value : Expr) (p : Plan) :
    (planSetExpr s v value p).said = p.said ++
      ((if value.valueType s.types = v.type then [] else [.typesDiffer (value.valueType s.types) v.type v.name]) ++
        undeclaredAmong s.types value.names) := by
  have hnoted : ∀ type, (if type ≠ v.type then p.act (.notice (.typesDiffer type v.type v.name)) else p).said =
      p.said ++ if type = v.type then [] else [.typesDiffer type v.type v.name] := by
    intro type
    by_cases h : type = v.type <;> simp [h, Action.said]
  unfold planSetExpr
  rw [value.type_eq_valueType]
  cases value <;> simp only [Plan.said_act, Plan.said_call, Expr.said_plan, hnoted, Action.said, List.append_nil,
    List.append_assoc]

end Statements

theorem said_planBlock (body : List Stmt) : ∀ (s : Setting) (p : Plan),
    (planBlock s body p).said = p.said ++ blockRemarks s.types body := by
  induction body using block_induction
    (P := fun stmt => ∀ (s : Setting) (p : Plan), (stmt.plan s p).said = p.said ++ stmt.remarks s.types) with
  | printText text s p => simp [Stmt.plan, Stmt.remarks]
  | printName name s p =>
    refine Setting.said_withVariable ?_
    intro v _
    rw [said_planPrint, List.append_nil]
  | read name s p =>
    refine Setting.said_withVariable ?_
    intro v _
    rw [said_planRead, List.append_nil]
  | setText name text s p =>
    refine Setting.said_withVariable ?_
    rintro v rfl
    exact said_planSetText v text p
  | setExpr name value s p =>
    refine Setting.said_withVariable ?_
    rintro v rfl
    exact said_planSetExpr v value p
  | ifThen test thenBody ih s p => simp [Stmt.plan, Stmt.remarks, Test.said_plan, ih, Setting.types_nested]
  | ifElse test thenBody elseBody ihThen ihElse s p =>
    simp [Stmt.plan, Stmt.remarks, Test.said_plan, ihThen, ihElse, Setting.types_nested]
  | whileDo test body ih s p => simp [Stmt.plan, Stmt.remarks, Test.said_plan, ih, Setting.types_nested]
  | nil =>
    intro s p
    simp [planBlock, blockRemarks]
  | cons stmt rest ihStmt ihRest =>
    intro s p
    simp [planBlock, blockRemarks, ihStmt, ihRest]

/-! ## Programs -/

theorem Program.types_planDeclarations (p : Program) {q : Plan} {added : List Action}
    (actions : (planDeclarations .empty (p.declarations.getD []) q).2.actions.toList = q.actions.toList ++ added)
    (clean : ∀ fault, .fail fault ∉ added) :
    Lookup.typing (planDeclarations .empty (p.declarations.getD []) q).1.lookup? = p.typing := by
  obtain ⟨_, added', hdeclared, hactions, -⟩ :=
    ScopeTable.planDeclarations_spec (p.declarations.getD []) ScopeTable.flat_empty q
  obtain rfl := List.append_cancel_left (hactions.symm.trans actions)
  funext name
  exact (hdeclared.types clean name).trans rfl

theorem prefix_of_not_mem {α : Type} {ran front rest : List α} {a : α} (h : ran <+: front ++ a :: rest) (ha : a ∉ ran) :
    ran <+: front := by
  rcases List.prefix_or_prefix_of_prefix h (List.prefix_append front _) with hran | ⟨more, rfl⟩
  · exact hran
  · rw [List.prefix_append_right_inj] at h
    cases more with
    | nil => simp
    | cons b more =>
      obtain ⟨rfl, -⟩ := List.cons_prefix_cons.1 h
      simp at ha

/-- Whatever of the plan is carried out says the first of the remarks, and the whole plan says all of them. -/
theorem Program.plan_says (p : Program) (className : String) (policy : UndeclaredPolicy) (q : Plan) :
    ∃ added, (p.plan ⟨className, policy, .empty⟩ q).actions.toList = q.actions.toList ++ added ∧
      ∀ ran, ran <+: added → (∀ fault, .fail fault ∉ ran) →
        ran.flatMap Action.said <+: p.remarks ∧ (ran = added → ran.flatMap Action.said = p.remarks) := by
  obtain ⟨done, left, declaring, stop, doing, hdecls, hdone, hends, hmid, hactions, -⟩ :=
    p.plan_parts ⟨className, policy, .empty⟩ q
  have hdeclaring : declaring.flatMap Action.said = (repeated [] done).map Declaration.notice :=
    (Action.noted_eq_said hdone.clean).symm.trans hdone.noted
  refine ⟨declaring ++ stop ++ doing, by rw [hactions, List.append_assoc], ?_⟩
  intro ran hran hclean
  have hbegins : ∀ actions, ran <+: actions → ran.flatMap Action.said <+: actions.flatMap Action.said := by
    rintro _ ⟨rest, rfl⟩
    rw [List.flatMap_append]
    exact List.prefix_append _ _
  -- If the slots are given out, the run stops before the body, and has said the first of the remarks.
  cases hends with
  | all =>
    rw [List.append_nil] at hdecls hmid hactions hran
    have hdoing : doing.flatMap Action.said = blockRemarks p.typing p.body := by
      have hsaid := said_planBlock p.body ⟨className, policy, (planDeclarations .empty (p.declarations.getD []) q).1⟩
        (planDeclarations .empty (p.declarations.getD []) q).2
      rw [Setting.types, p.types_planDeclarations hmid hdone.clean, Plan.said, Plan.said, hmid,
        show (planBlock _ p.body _).actions.toList = _ from hactions, List.flatMap_append] at hsaid
      exact List.append_cancel_left hsaid
    have hwhole : (declaring ++ doing).flatMap Action.said = p.remarks := by
      rw [List.flatMap_append, hdeclaring, hdoing, ← hdecls]
      rfl
    refine ⟨hwhole ▸ hbegins _ hran, ?_⟩
    rintro rfl
    rw [List.append_nil, hwhole]
  | @full d rest full =>
    rw [List.append_assoc, List.singleton_append] at hran
    have hfront := prefix_of_not_mem hran (hclean _)
    refine ⟨?_, ?_⟩
    · have hsaid := hbegins _ hfront
      rw [hdeclaring] at hsaid
      refine hsaid.trans ?_
      rw [remarks, hdecls, repeated_append, List.map_append, List.append_assoc]
      exact List.prefix_append _ _
    · rintro rfl
      exact absurd (List.mem_append_left _ (List.mem_append_right _ (.head _))) (hclean _)

/-! ## Sessions and artifacts -/

namespace Session

theorem notices_of_carryOut_error {a : Action} {s r : Session} {fault : Fault} (h : carryOut a s = .error fault r) :
    r.notices.toList = s.notices.toList := by
  have hnoted := notices_carryOut a s
  rw [h] at hnoted
  cases a with
  | notice n => cases h
  | _ => exact hnoted.trans (List.append_nil _)

theorem compileProgram_remarks (p : Program) {s : Session} (hs : s.scope = .empty) :
    ∃ said, (lastState (compileProgram p s)).notices.toList = s.notices.toList ++ said ∧ said <+: p.remarks ∧
      ∀ r, compileProgram p s = .ok () r → said = p.remarks := by
  obtain ⟨added, hactions, hspoken⟩ := p.plan_says s.className s.policy s.emptyPlan
  have hrun : compileProgram p s = carryOutAll added s := by
    rw [compileProgram_planned, setting, hs, hactions]
    rfl
  rw [hrun]
  rcases carryOutAll_cases added s with ⟨m, hm⟩ | ⟨ran, a, rest, m, fault, r, rfl, hran, ha, hall⟩
  · obtain ⟨-, -, hclean, -⟩ := carryOutAll_eq_ok hm
    obtain ⟨hbegins, hwhole⟩ := hspoken added List.prefix_rfl hclean
    refine ⟨added.flatMap Action.said, ?_, hbegins, fun _ _ => hwhole rfl⟩
    rw [hm, ← Action.noted_eq_said hclean]
    exact notices_of_carryOutAll hm
  · obtain ⟨-, -, hclean, -⟩ := carryOutAll_eq_ok hran
    refine ⟨ran.flatMap Action.said, ?_, (hspoken ran (List.prefix_append _ _) hclean).1, by simp [hall]⟩
    rw [hall, ← Action.noted_eq_said hclean, ← notices_of_carryOutAll hran]
    exact notices_of_carryOut_error ha

end Session

namespace Artifact

theorem conclude_eq_ok {className : String} {options : Options} {c : ClassFile}
    {result : EStateM.Result Fault Session Unit} {a : Artifact} (h : conclude className options c result = .ok a) :
    ∃ s, result = .ok () s := by
  cases result with
  | ok _ s => exact ⟨s, rfl⟩
  | error fault s => cases h

theorem ofProgram_remarks (p : Program) (className : String) (options : Options) :
    noticesOf (ofProgram p className options) <+: p.remarks ∧
      ∀ a, ofProgram p className options = .ok a → a.notices = p.remarks := by
  obtain ⟨frames, policy, sourceFile⟩ := options
  rw [ofProgram_eq]
  cases opening className frames with
  | error fault => exact ⟨List.nil_prefix, by simp⟩
  | ok r =>
    obtain ⟨arguments, c⟩ := r
    obtain ⟨said, hsaid, hbegins, hwhole⟩ := Session.compileProgram_remarks p
      (s := Program.session className policy (.start c.pool c.thisClass [.object arguments] frames)) rfl
    rw [p.compileProgram_eq] at hsaid hwhole
    have hnotices := notices_conclude className ⟨frames, policy, sourceFile⟩ c
      (Session.carryOutAll (p.fullPlan className policy).actions.toList
        (Program.session className policy (.start c.pool c.thisClass [.object arguments] frames)))
    rw [hsaid, show (Program.session className policy _).notices.toList ++ said = said from rfl] at hnotices
    refine ⟨hnotices ▸ hbegins, ?_⟩
    intro a ha
    obtain ⟨s, hs⟩ := conclude_eq_ok ha
    rw [show conclude className ⟨frames, policy, sourceFile⟩ c _ = .ok a from ha] at hnotices
    exact hnotices.trans (hwhole s hs)

/-- A compiled program has just the notices that the walk over its text gives, in the order of the walk; a failed one has
the first of them. They do not depend on the class name and the options, nor on the body and the constant pool of the
session. The names that are not declared are errors, and all else are warnings. -/
theorem notices_are_remarks (p : Program) :
    (∀ className options a, ofProgram p className options = .ok a → a.notices = p.remarks) ∧
    (∀ className options, noticesOf (ofProgram p className options) <+: p.remarks) ∧
    (∀ s s' : Session, s.scope = .empty → Session.compileProgram p s = .ok () s' →
      s'.notices.toList = s.notices.toList ++ p.remarks) ∧
    ∀ n : Notice, (n.severity = .error ↔ ∃ x, n = .undeclared x) ∧ (n.severity = .warning ↔ ∀ x, n ≠ .undeclared x) := by
  refine ⟨?_, ?_, ?_, ?_⟩
  · intro className options
    exact (ofProgram_remarks p className options).2
  · intro className options
    exact (ofProgram_remarks p className options).1
  · intro s s' hs hok
    obtain ⟨said, hsaid, -, hwhole⟩ := Session.compileProgram_remarks p hs
    rw [hok, hwhole s' hok] at hsaid
    exact hsaid
  · intro n
    cases n <;> simp [Notice.severity]

def remarkable : Program :=
  ⟨"p", some [⟨.integer, "a"⟩, ⟨.text, "b"⟩, ⟨.text, "a"⟩],
    [.setExpr "c" (.name "d"), .setText "a" "x", .setExpr "b" (.paren (.name "b")),
      .setExpr "b" (.arithmetic .add (.name "a") (.name "d")),
      .ifElse ⟨.name "e", .less, .name "a"⟩ [.printName "f"] [.read "g"]]⟩

theorem notices_are_remarks_remarkable :
    ∃ a, ofProgram remarkable "P" ⟨false, .report, none⟩ = .ok a ∧ a.notices =
      [.redeclared "a" .text, .undeclared "c", .textAssigned .integer "a", .typesDiffer .integer .text "b",
        .undeclared "d", .undeclared "e", .undeclared "g", .undeclared "f"] := by
  have hsome : (ofProgram remarkable "P" ⟨false, .report, none⟩).toOption.isSome = true := by decide +kernel
  obtain ⟨a, ha⟩ := Option.isSome_iff_exists.1 hsome
  have hok := eq_ok_of_toOption ha
  refine ⟨a, hok, ?_⟩
  rw [(notices_are_remarks remarkable).1 _ _ a hok]
  decide +kernel

end Artifact

end KnightCode
