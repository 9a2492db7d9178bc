import KnightCode.Proofs.Policies

/-!
# The names of variables

No name of a variable gets into a class file. A program whose variables have other names, different ones for different
variables, is compiled to the same class or fails for the same reason, and what is said differs only in the names.
-/

namespace KnightCode

/-! ## What is said -/

namespace Notice

def subject : Notice → String
  | .redeclared name _ | .textAssigned _ name | .typesDiffer _ _ name | .undeclared name => name

def renamed (f : String → String) : Notice → Notice
  | .redeclared name type => .redeclared (f name) type
  | .textAssigned type name => .textAssigned type (f name)
  | .typesDiffer valueType type name => .typesDiffer valueType type (f name)
  | .undeclared name => .undeclared (f name)

theorem severity_renamed (f : String → String) (n : Notice) : (n.renamed f).severity = n.severity := by cases n <;> rfl

theorem message_renamed (f : String → String) (n : Notice) : ∃ before after,
    n.message = before ++ n.subject ++ after ∧ (n.renamed f).message = before ++ f n.subject ++ after := by
  cases n with
  | redeclared name type =>
    exact ⟨"variable '", "' is already declared in this scope; ignoring redeclaration as " ++ type.spelling,
      String.append_assoc .., String.append_assoc ..⟩
  | textAssigned type name => exact ⟨_, _, rfl, rfl⟩
  | typesDiffer valueType type name => exact ⟨_, _, rfl, rfl⟩
  | undeclared name => exact ⟨_, _, rfl, rfl⟩

end Notice

namespace Fault

def subject? : Fault → Option String
  | .undeclared name | .duplicate name | .code (.tooManyVariables name) => some name
  | _ => none

def renamed (f : String → String) : Fault → Fault
  | .undeclared name => .undeclared (f name)
  | .duplicate name => .duplicate (f name)
  | .code (.tooManyVariables name) => .code (.tooManyVariables (f name))
  | fault => fault

theorem message_renamed (f : String → String) {fault : Fault} {name : String} (h : fault.subject? = some name) :
    ∃ before after, fault.message = before ++ name ++ after ∧ (fault.renamed f).message = before ++ f name ++ after := by
  revert h
  fun_cases subject? fault with
  | case1 name =>
    rintro ⟨⟩
    exact ⟨_, _, rfl, rfl⟩
  | case2 name =>
    rintro ⟨⟩
    exact ⟨_, _, rfl, rfl⟩
  | case3 name =>
    rintro ⟨⟩
    have hmessage : ∀ name, message (.code (.tooManyVariables name)) =
        "codegen error: " ++ "too many variables: cannot allocate slot for '" ++ name ++ "'" := by
      intro name
      change "codegen error: " ++ ("too many variables: cannot allocate slot for '" ++ name ++ "'") = _
      simp only [String.append_assoc]
    exact ⟨_, _, hmessage name, hmessage (f name)⟩
  | case4 => simp

theorem renamed_of_subject?_none (f : String → String) {fault : Fault} (h : fault.subject? = none) :
    fault.renamed f = fault := by
  revert h
  fun_cases subject? fault with
  | case1 => simp
  | case2 => simp
  | case3 => simp
  | case4 => simp_all [renamed]

/-! ### Faults that are about no variable -/

variable (f : String → String) {fault : Fault}

theorem IsPool.renamed_eq (h : fault.IsPool) : fault.renamed f = fault := by
  apply renamed_of_subject?_none
  revert h
  fun_cases IsPool fault <;> simp [subject?]

theorem IsSize.renamed_eq (h : fault.IsSize) : fault.renamed f = fault := by
  apply renamed_of_subject?_none
  revert h
  fun_cases IsSize fault <;> simp [subject?]

theorem IsLimit.renamed_eq (h : fault.IsLimit) : fault.renamed f = fault :=
  h.elim (IsPool.renamed_eq f) (IsSize.renamed_eq f)

end Fault

theorem Artifact.IsOpeningFault.renamed_eq (f : String → String) {className : String} {fault : Fault}
    (h : IsOpeningFault className fault) : fault.renamed f = fault := by
  rcases h with h | ⟨rfl, -⟩
  · exact h.renamed_eq f
  · rfl

/-! ## Plans -/

def Action.renamed (f : String → String) : Action → Action
  | .call c => .call c
  | .notice n => .notice (n.renamed f)
  | .declare name type => .declare (f name) type
  | .remember name value => .remember (f name) value
  | .readsInput => .readsInput
  | .fail fault => .fail (fault.renamed f)

theorem Setting.corresponds_renamed (f : String → String) (className : String) (policy : UndeclaredPolicy)
    (used : List String) :
    Setting.Corresponds f (Action.renamed f) used ⟨className, policy, .empty⟩ ⟨className, policy, .empty⟩ where
  follows := by constructor <;> intros <;> rfl
  className := rfl
  scope := .empty f used
  undeclared := by
    intro x p
    cases policy <;> exact p.mapped_act _ _

theorem Program.fullPlan_renamed {f : String → String} {p : Program}
    (inj : ∀ x ∈ p.variables, ∀ y ∈ p.variables, f x = f y → x = y) (className : String) (policy : UndeclaredPolicy) :
    ((p.renamed f).fullPlan className policy).actions.toList =
      (p.fullPlan className policy).actions.toList.map (Action.renamed f) := by
  have hplan := (Setting.corresponds_renamed f className policy p.variables).programPlan inj ⟨0, #[]⟩
  rw [Plan.mapped_empty] at hplan
  rw [fullPlan, ← hplan]
  exact Array.toList_map

/-! ## Sessions -/

namespace Session

/-- The sessions have done the same and said the same, but for the names. -/
structure Alike (f : String → String) (s s' : Session) : Prop where
  body : s'.body = s.body
  readsInput : s'.readsInput = s.readsInput
  notices : s'.notices = s.notices.map (Notice.renamed f)

inductive EndAlike (f : String → String) :
    EStateM.Result Fault Session Unit → EStateM.Result Fault Session Unit → Prop
  | ok {s s' : Session} (alike : s.Alike f s') : EndAlike f (.ok () s) (.ok () s')
  | error {fault : Fault} {s s' : Session} (alike : s.Alike f s') :
      EndAlike f (.error fault s) (.error (fault.renamed f) s')

variable {f : String → String} {s s' : Session}

theorem onScope_alike (h : s.Alike f s') {work work' : Scoping Unit} {t t' : ScopeTable}
    (run : work s.scope = .ok () t) (run' : work' s'.scope = .ok () t') :
    EndAlike f (onScope work s) (onScope work' s') := by
  simp only [onScope, run, run']
  exact .ok ⟨h.body, h.readsInput, h.notices⟩

theorem onBody_alike (h : s.Alike f s') (work : Build Unit)
    (about : ∀ fault b, work s.body = .error fault b → fault.renamed f = fault) :
    EndAlike f (onBody work s) (onBody work s') := by
  simp only [onBody, h.body]
  cases hrun : work s.body with
  | ok _ b => exact .ok ⟨rfl, h.readsInput, h.notices⟩
  | error fault b =>
    have hend : EndAlike f
        (.error fault ⟨s.className, s.policy, b, s.scope, s.notices, s.readsInput⟩)
        (.error (fault.renamed f) ⟨s'.className, s'.policy, b, s'.scope, s'.notices, s'.readsInput⟩) :=
      .error ⟨rfl, h.readsInput, h.notices⟩
    rwa [about fault b hrun] at hend

/-- One action, if both changes of the scope succeed and a call fails only for reasons that are about no variable. -/
theorem carryOut_alike (h : s.Alike f s') (a : Action) {t t' : ScopeTable} (scope : a.onScope s.scope = .ok () t)
    (scope' : (a.renamed f).onScope s'.scope = .ok () t')
    (about : ∀ fault b, Call.performAll (callsOf [a]) s.body = .error fault b → fault.renamed f = fault) :
    EndAlike f (carryOut a s) (carryOut (a.renamed f) s') := by
  cases a with
  | call c =>
    refine onBody_alike h c.perform ?_
    intro fault b hb
    have hrun : Call.performAll (callsOf [.call c]) = (do c.perform; pure ()) := rfl
    exact about fault b (by rw [hrun]; exact bind_eq_error.2 (.inl hb))
  | notice n => exact .ok ⟨h.body, h.readsInput, by simp [h.notices]⟩
  | declare name type => exact onScope_alike h scope scope'
  | remember name value => exact onScope_alike h scope scope'
  | readsInput => exact .ok ⟨h.body, rfl, h.notices⟩
  | fail fault => exact .error h

theorem carryOutAll_alike (actions : List Action) (h : s.Alike f s') {t t' : ScopeTable}
    (scope : rescope actions s.scope = .ok () t)
    (scope' : rescope (actions.map (Action.renamed f)) s'.scope = .ok () t')
    (about : ∀ fault b, Call.performAll (callsOf actions) s.body = .error fault b → fault.renamed f = fault) :
    EndAlike f (carryOutAll actions s) (carryOutAll (actions.map (Action.renamed f)) s') := by
  induction actions generalizing s s' with
  | nil => exact .ok h
  | cons a actions ih =>
    -- The tables have different names in them, so each run is followed with a table of its own.
    obtain ⟨_, m, hscope, hrest⟩ := bind_eq_ok.1 scope
    obtain ⟨_, m', hscope', hrest'⟩ := bind_eq_ok.1 scope'
    rw [callsOf_cons, Call.performAll_append] at about
    have hfirst := carryOut_alike h a hscope hscope' fun fault b hb =>
      about fault b (bind_eq_error.2 (.inl hb))
    rw [List.map_cons, carryOutAll_cons, carryOutAll_cons]
    simp only [bind, EStateM.bind]
    generalize hrun : carryOut a s = result at hfirst
    generalize hrun' : carryOut (a.renamed f) s' = result' at hfirst
    cases hfirst with
    | error alike => exact .error alike
    | ok alike =>
      have hdid := carryOut_eq_ok hrun
      have hdid' := carryOut_eq_ok hrun'
      cases hscope.symm.trans hdid.scope
      cases hscope'.symm.trans hdid'.scope
      exact ih alike hrest hrest' fun fault b hb =>
        about fault b (bind_eq_error.2 (.inr ⟨_, _, hdid.body, hb⟩))

end Session

/-! ## Artifacts -/

namespace Artifact

/-- The result with other names in what is said. The class is the same. -/
def renamedResult (f : String → String) : Except Failure Artifact → Except Failure Artifact
  | .ok a => .ok ⟨a.classFile, a.notices.map (Notice.renamed f)⟩
  | .error failure => .error ⟨failure.fault.renamed f, failure.notices.map (Notice.renamed f)⟩

theorem conclude_alike {f : String → String} {result result' : EStateM.Result Fault Session Unit}
    (h : Session.EndAlike f result result') (className : String) (options : Options) (c : ClassFile)
    (finishing : ∀ s fault, result = .ok () s → s.body.finish = .error fault → fault.renamed f = fault)
    (closed : ∀ s code fault k, result = .ok () s →
      closing className options code s.readsInput { c with pool := s.body.pool } = .error fault k →
        fault.renamed f = fault) :
    conclude className options c result' = renamedResult f (conclude className options c result) := by
  cases h with
  | @error fault s s' alike => simp [conclude, renamedResult, alike.notices]
  | @ok s s' alike =>
    simp only [conclude, alike.body, alike.readsInput, alike.notices, Array.toList_map]
    cases hfinish : s.body.finish with
    | error fault => simp only [renamedResult, finishing s fault rfl hfinish]
    | ok code =>
      simp only
      cases hclosing : closing className options code s.readsInput { c with pool := s.body.pool } with
      | ok _ k => rfl
      | error fault k => simp only [renamedResult, closed s code fault k rfl hclosing]

theorem ofProgram_renamed {f : String → String} {p : Program}
    (inj : ∀ x ∈ p.variables, ∀ y ∈ p.variables, f x = f y → x = y) (className : String) (options : Options) :
    ofProgram (p.renamed f) className options = renamedResult f (ofProgram p className options) := by
  obtain ⟨frames, policy, sourceFile⟩ := options
  have hopening := opening_cases className frames
  rw [ofProgram_eq, ofProgram_eq]
  cases ho : opening className frames with
  | error fault =>
    rw [ho] at hopening
    simp only [renamedResult, hopening.renamed_eq f, List.map_nil]
  | ok r =>
    obtain ⟨arguments, c⟩ := r
    rw [ho] at hopening
    have hopened : Opened className frames arguments c := hopening
    have hyields := p.compiled_yields className hopened.wellFormed c.thisClass arguments frames
    obtain ⟨declaring, doing, planned⟩ := p.planned className policy
    obtain ⟨declaring', doing', planned'⟩ := (p.renamed f).planned className policy
    obtain ⟨t, ht⟩ := planned.rescope_eq
    obtain ⟨t', ht'⟩ := planned'.rescope_eq
    have hcalls : callsOf (p.fullPlan className policy).actions.toList = p.calls className := by
      rw [planned.actions, planned.calls]
    rw [← planned.actions] at ht
    rw [← planned'.actions, Program.fullPlan_renamed inj] at ht'
    -- No call of the plan fails with a fault that names a variable.
    have hend := Session.carryOutAll_alike (p.fullPlan className policy).actions.toList
      (s := Program.session className policy (.start c.pool c.thisClass [.object arguments] frames))
      (f := f) ⟨rfl, rfl, by simp [Program.session]⟩ ht ht'
      fun fault b hb => (hyields.of_error (hcalls ▸ hb)).renamed_eq f
    rw [← Program.fullPlan_renamed inj] at hend
    have hcompiled : ∀ s, Session.carryOutAll (p.fullPlan className policy).actions.toList
        (Program.session className policy (.start c.pool c.thisClass [.object arguments] frames)) = .ok () s →
        p.Compiled className (.start c.pool c.thisClass [.object arguments] frames) s.body := by
      intro s hs
      obtain ⟨hperform, -⟩ := Session.carryOutAll_eq_ok hs
      exact hyields.of_ok (hcalls ▸ hperform)
    refine conclude_alike hend className _ c ?_ ?_
    · intro s fault hs hfinish
      exact (finish_eq_error_of_owns hopened.wellFormed (hcompiled s hs).performs (p.ownsLabels_calls className)
        hfinish).renamed_eq f
    · intro s code fault k hs hclosing
      have hwf := ((hcompiled s hs).performs.continues hopened.wellFormed).pool.2
      exact ((closing_yields className _ code s.readsInput (c := { c with pool := s.body.pool }) hwf).of_error
        hclosing).renamed_eq f

/-- A program with other names for its variables, different ones for different variables, is compiled to the same class
with the same notices, or fails with the same fault after the same notices, each about the variable's new name. A notice
keeps its severity, and the words around the name are the same. -/
theorem variable_names_stay_out_of_class (p : Program) {f : String → String}
    (inj : ∀ x ∈ p.variables, ∀ y ∈ p.variables, f x = f y → x = y) (className : String) (options : Options) :
    ofProgram (p.renamed f) className options = renamedResult f (ofProgram p className options) ∧
    (∀ n : Notice, (n.renamed f).severity = n.severity ∧ ∃ before after,
      n.message = before ++ n.subject ++ after ∧ (n.renamed f).message = before ++ f n.subject ++ after) ∧
    ∀ fault : Fault, (fault.subject? = none → fault.renamed f = fault) ∧
      ∀ name, fault.subject? = some name → ∃ before after,
        fault.message = before ++ name ++ after ∧ (fault.renamed f).message = before ++ f name ++ after := by
  refine ⟨ofProgram_renamed inj className options, ?_, ?_⟩
  · intro n
    exact ⟨n.severity_renamed f, n.message_renamed f⟩
  · intro fault
    exact ⟨Fault.renamed_of_subject?_none f, fun name => Fault.message_renamed f⟩

/-- One variable is declared twice and set to a text, and another one is not declared. -/
def crossing : Program :=
  ⟨"P", some [⟨.integer, "a"⟩, ⟨.text, "b"⟩, ⟨.text, "a"⟩], [.setExpr "a" (.name "b"), .printName "c"]⟩

def exchanged (name : String) : String := if name = "a" then "b" else if name = "b" then "a" else "un" ++ name

theorem variable_names_stay_out_of_class_crossing :
    (∃ classFile,
      ofProgram crossing "P" ⟨false, .report, none⟩ =
        .ok ⟨classFile, [.redeclared "a" .text, .typesDiffer .text .integer "a", .undeclared "c"]⟩ ∧
      ofProgram (crossing.renamed exchanged) "P" ⟨false, .report, none⟩ =
        .ok ⟨classFile, [.redeclared "b" .text, .typesDiffer .text .integer "b", .undeclared "unc"]⟩) ∧
    ofProgram (crossing.renamed exchanged) "P" ⟨false, .fatal, none⟩ =
      .error ⟨.undeclared "unc", [.redeclared "b" .text, .typesDiffer .text .integer "b"]⟩ := by
  have hinj : ∀ x ∈ crossing.variables, ∀ y ∈ crossing.variables, exchanged x = exchanged y → x = y := by
    decide +kernel
  obtain ⟨hreport, -⟩ := variable_names_stay_out_of_class crossing hinj "P" ⟨false, .report, none⟩
  obtain ⟨hfatal, -⟩ := variable_names_stay_out_of_class crossing hinj "P" ⟨false, .fatal, none⟩
  have hnotices : (ofProgram crossing "P" ⟨false, .report, none⟩).toOption.map notices =
      some [.redeclared "a" .text, .typesDiffer .text .integer "a", .undeclared "c"] := by decide +kernel
  have hstops : (ofProgram crossing "P" ⟨false, .fatal, none⟩).map notices =
      .error ⟨.undeclared "c", [.redeclared "a" .text, .typesDiffer .text .integer "a"]⟩ := by decide +kernel
  constructor
  · cases hok : ofProgram crossing "P" ⟨false, .report, none⟩ with
    | error failure =>
      rw [hok] at hnotices
      cases hnotices
    | ok a =>
      obtain ⟨classFile, said⟩ := a
      rw [hok] at hnotices hreport
      cases hnotices
      exact ⟨classFile, rfl, hreport⟩
  · cases herror : ofProgram crossing "P" ⟨false, .fatal, none⟩ with
    | ok a =>
      rw [herror] at hstops
      cases hstops
    | error failure =>
      rw [herror] at hstops hfatal
      cases hstops
      exact hfatal

end Artifact

end KnightCode
