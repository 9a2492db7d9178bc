import KnightCode.Proofs.Correspondence
import KnightCode.Proofs.MainMethod

/-!
# The two policies

A program is compiled alike whether an undeclared variable is fatal or reported, up to the first undeclared variable.
There one run fails and the other notes the same name as an error.
-/

namespace KnightCode

/-! ## Plans -/

/-- What an action becomes when an undeclared variable is fatal. -/
def Action.hardened : Action → Action
  | .notice (.undeclared name) => .fail (.undeclared name)
  | action => action

def Plan.hardened (p : Plan) : Plan := ⟨p.labels, p.actions.map Action.hardened⟩

def Setting.under (s : Setting) (policy : UndeclaredPolicy) : Setting := { s with policy }

/-- Only what is planned about an undeclared variable depends on the policy. -/
theorem Setting.corresponds_under (s : Setting) (used : List String) :
    Setting.Corresponds id Action.hardened used (s.under .report) (s.under .fatal) where
  follows := by constructor <;> intros <;> rfl
  className := rfl
  scope := .refl s.scope used
  undeclared := fun _ p => p.mapped_act _ _

theorem Program.fullPlan_fatal (p : Program) (className : String) :
    p.fullPlan className .fatal = (p.fullPlan className .report).hardened := by
  have hplan := (Setting.corresponds_under ⟨className, .report, .empty⟩ p.variables).programPlan (fun _ _ _ _ => id)
    ⟨0, #[]⟩
  rw [p.renamed_id, Plan.mapped_empty] at hplan
  exact hplan.symm

/-! ## Sessions -/

def Action.noted : Action → List Notice
  | .notice n => [n]
  | _ => []

theorem Action.eq_of_not_undeclared {a : Action} (h : ∀ name, a ≠ .notice (.undeclared name)) :
    a.hardened = a ∧ ∀ n ∈ a.noted, n.severity ≠ .error := by
  cases a with
  | notice n =>
    cases n with
    | undeclared name => exact absurd rfl (h name)
    | _ => simp [Action.hardened, Action.noted, Notice.severity]
  | _ => simp [Action.hardened, Action.noted]

namespace Session

def under (s : Session) (policy : UndeclaredPolicy) : Session := { s with policy }

def resultUnder (policy : UndeclaredPolicy) : EStateM.Result Fault Session Unit → EStateM.Result Fault Session Unit
  | .ok _ s => .ok () (s.under policy)
  | .error fault s => .error fault (s.under policy)

theorem carryOut_under (a : Action) (s : Session) (policy : UndeclaredPolicy) :
    carryOut a (s.under policy) = resultUnder policy (carryOut a s) := by
  have hcommutes := carryOut_commutes a (fun _ => policy) (fun _ => .of_id) s
  cases hrun : carryOut a s with
  | ok _ m => rwa [hrun] at hcommutes
  | error fault m => rwa [hrun] at hcommutes

theorem notices_onBody (work : Build Unit) (s : Session) : (lastState (onBody work s)).notices = s.notices := by
  simp only [onBody]
  cases work s.body <;> rfl

theorem notices_onScope (work : Scoping Unit) (s : Session) : (lastState (onScope work s)).notices = s.notices := by
  simp only [onScope]
  cases work s.scope <;> rfl

theorem notices_carryOut (a : Action) (s : Session) :
    (lastState (carryOut a s)).notices.toList = s.notices.toList ++ a.noted := by
  cases a with
  | call c => simp [carryOut, call, notices_onBody, Action.noted]
  | declare name type => simp [carryOut, notices_onScope, Action.noted]
  | remember name value => simp [carryOut, remember, notices_onScope, Action.noted]
  | notice n => exact Array.toList_push
  | readsInput => exact (List.append_nil _).symm
  | fail fault => exact (List.append_nil _).symm

theorem notices_carryOutAll (actions : List Action) (s : Session) :
    s.notices.toList <+: (lastState (carryOutAll actions s)).notices.toList := by
  induction actions generalizing s with
  | nil => exact List.prefix_rfl
  | cons a actions ih =>
    have hfirst := notices_carryOut a s
    rw [carryOutAll_cons]
    simp only [bind, EStateM.bind]
    cases hrun : carryOut a s with
    | error fault m =>
      rw [hrun] at hfirst
      exact ⟨_, hfirst.symm⟩
    | ok _ m =>
      rw [hrun] at hfirst
      exact (List.prefix_iff_exists_append_eq.2 ⟨_, hfirst.symm⟩).trans (ih m)

theorem notices_of_carryOutAll {actions : List Action} {s s' : Session} (h : carryOutAll actions s = .ok () s') :
    s'.notices.toList = s.notices.toList ++ actions.flatMap Action.noted := by
  induction actions generalizing s with
  | nil =>
    cases h
    simp
  | cons a actions ih =>
    rw [carryOutAll_cons] at h
    obtain ⟨_, m, hfirst, hrest⟩ := bind_eq_ok.1 h
    have hnoted := notices_carryOut a s
    rw [hfirst] at hnoted
    rw [ih hrest, show m.notices.toList = _ from hnoted, List.flatMap_cons, List.append_assoc]

/-- How the run in which an undeclared variable is fatal goes beside the one in which it is reported. -/
inductive Lockstep (fatal report : EStateM.Result Fault Session Unit) : Prop
  | same (alike : fatal = resultUnder .fatal report)
      (clean : ∀ n ∈ (lastState report).notices.toList, n.severity ≠ .error)
  | undeclared (name : String) (s : Session) (stopped : fatal = .error (.undeclared name) s)
      (noted : s.notices.toList ++ [.undeclared name] <+: (lastState report).notices.toList)

theorem carryOutAll_lockstep (actions : List Action) (s : Session)
    (clean : ∀ n ∈ s.notices.toList, n.severity ≠ .error) :
    Lockstep (carryOutAll (actions.map Action.hardened) (s.under .fatal)) (carryOutAll actions s) := by
  induction actions generalizing s with
  | nil => exact .same rfl clean
  | cons a actions ih =>
    -- The first undeclared variable stops one run and is noted in the other; until then both do the same.
    by_cases hundeclared : ∃ name, a = .notice (.undeclared name)
    · obtain ⟨name, rfl⟩ := hundeclared
      have hnoted := notices_carryOutAll actions { s with notices := s.notices.push (.undeclared name) }
      rw [Array.toList_push] at hnoted
      exact .undeclared name (s.under .fatal) rfl hnoted
    · obtain ⟨hhardened, hnoted⟩ := Action.eq_of_not_undeclared (not_exists.1 hundeclared)
      have hclean : ∀ n ∈ (lastState (carryOut a s)).notices.toList, n.severity ≠ .error := by
        rw [notices_carryOut]
        intro n hn
        exact (List.mem_append.1 hn).elim (clean n) (hnoted n)
      rw [List.map_cons, hhardened, carryOutAll_cons, carryOutAll_cons]
      simp only [bind, EStateM.bind, carryOut_under]
      cases hrun : carryOut a s with
      | error fault m =>
        rw [hrun] at hclean
        exact .same rfl hclean
      | ok _ m =>
        rw [hrun] at hclean
        exact ih m hclean

end Session

/-! ## Artifacts -/

namespace Artifact

def noticesOf : Except Failure Artifact → List Notice
  | .ok a => a.notices
  | .error failure => failure.notices

/-- The result of a program whose body of `main` has been compiled, or could not be. -/
def conclude (className : String) (options : Options) (c : ClassFile) :
    EStateM.Result Fault Session Unit → Except Failure Artifact
  | .error fault s => .error ⟨fault, s.notices.toList⟩
  | .ok _ s =>
    match s.body.finish with
    | .error fault => .error ⟨fault, s.notices.toList⟩
    | .ok code =>
      match closing className options code s.readsInput { c with pool := s.body.pool } with
      | .ok _ c => .ok ⟨c, s.notices.toList⟩
      | .error fault _ => .error ⟨fault, s.notices.toList⟩

theorem ofProgram_eq (program : Program) (className : String) (frames : Bool) (policy : UndeclaredPolicy)
    (sourceFile : Option String) :
    ofProgram program className ⟨frames, policy, sourceFile⟩ =
      match opening className frames with
      | .error fault => .error ⟨fault, []⟩
      | .ok (arguments, c) =>
        conclude className ⟨frames, policy, sourceFile⟩ c
          (Session.carryOutAll (program.fullPlan className policy).actions.toList
            (Program.session className policy (.start c.pool c.thisClass [.object arguments] frames))) := by
  rw [ofProgram, compileMain_planned]
  cases opening className frames with
  | error fault => rfl
  | ok r =>
    obtain ⟨arguments, c⟩ := r
    simp only
    cases Session.carryOutAll (program.fullPlan className policy).actions.toList _ <;> rfl

theorem notices_conclude (className : String) (options : Options) (c : ClassFile)
    (result : EStateM.Result Fault Session Unit) :
    noticesOf (conclude className options c result) = (lastState result).notices.toList := by
  cases result with
  | error fault s => rfl
  | ok _ s =>
    simp only [conclude]
    cases s.body.finish with
    | error fault => rfl
    | ok code =>
      simp only
      cases closing className options code s.readsInput { c with pool := s.body.pool } <;> rfl

theorem conclude_under (className : String) (frames : Bool) (policy other : UndeclaredPolicy)
    (sourceFile : Option String) (c : ClassFile) (result : EStateM.Result Fault Session Unit) :
    conclude className ⟨frames, other, sourceFile⟩ c (Session.resultUnder other result) =
      conclude className ⟨frames, policy, sourceFile⟩ c result := by
  cases result <;> rfl

/-- How the result with undeclared variables fatal stands to the one with them reported. -/
inductive Agree (fatal report : Except Failure Artifact) : Prop
  | same (alike : fatal = report) (clean : ∀ n ∈ noticesOf report, n.severity ≠ .error)
  | undeclared (name : String) (noted : List Notice) (stopped : fatal = .error ⟨.undeclared name, noted⟩)
      (follows : noted ++ [.undeclared name] <+: noticesOf report)

theorem agree_ofProgram (program : Program) (className : String) (frames : Bool) (sourceFile : Option String) :
    Agree (ofProgram program className ⟨frames, .fatal, sourceFile⟩)
      (ofProgram program className ⟨frames, .report, sourceFile⟩) := by
  rw [ofProgram_eq, ofProgram_eq]
  cases opening className frames with
  | error fault => exact .same rfl (by simp [noticesOf])
  | ok r =>
    obtain ⟨arguments, c⟩ := r
    have hplan : (program.fullPlan className .fatal).actions.toList =
        (program.fullPlan className .report).actions.toList.map Action.hardened := by
      rw [program.fullPlan_fatal className]
      exact Array.toList_map
    have hrun := Session.carryOutAll_lockstep (program.fullPlan className .report).actions.toList
      (Program.session className .report (.start c.pool c.thisClass [.object arguments] frames))
      (by simp [Program.session])
    rw [← hplan] at hrun
    rw [show (Program.session className .report (.start c.pool c.thisClass [.object arguments] frames)).under .fatal =
      Program.session className .fatal (.start c.pool c.thisClass [.object arguments] frames) from rfl] at hrun
    cases hrun with
    | same alike clean =>
      refine .same ?_ (by rw [notices_conclude]; exact clean)
      simp only [alike]
      exact conclude_under className frames .report .fatal sourceFile c _
    | undeclared name s stopped noted =>
      refine .undeclared name s.notices.toList ?_ (by rw [notices_conclude]; exact noted)
      simp only [stopped]
      rfl

theorem Agree.ok_iff {fatal report : Except Failure Artifact} (h : Agree fatal report) (a : Artifact) :
    fatal = .ok a ↔ report = .ok a ∧ a.hasErrors = false := by
  cases h with
  | same alike clean =>
    rw [alike, iff_self_and]
    rintro rfl
    simpa [hasErrors, noticesOf] using clean
  | undeclared name noted stopped follows =>
    rw [stopped]
    refine ⟨nofun, ?_⟩
    rintro ⟨rfl, hclean⟩
    have hmem : .undeclared name ∈ a.notices := follows.subset (by simp)
    rw [hasErrors, List.any_eq_false] at hclean
    exact absurd (hclean _ hmem) (by simp [Notice.severity])

theorem report_not_undeclared (program : Program) (className : String) (frames : Bool) (sourceFile : Option String)
    (name : String) (noted : List Notice) :
    ofProgram program className ⟨frames, .report, sourceFile⟩ ≠ .error ⟨.undeclared name, noted⟩ := by
  intro h
  have hcases := ofProgram_cases program className ⟨frames, .report, sourceFile⟩
  rw [h] at hcases
  rcases hcases with ((h | h) | ⟨h, -⟩) | (h | ⟨_, h⟩ | ⟨h, -⟩) | h | h <;> cases h

/-- Undeclared variables that are fatal stop the compiler where it would first report one, and change nothing before.
So a program compiles under that policy just when it compiles without errors under the other one, which never fails for
an undeclared variable. -/
theorem fatal_agrees_with_report (program : Program) (className : String) (frames : Bool)
    (sourceFile : Option String) :
    Agree (ofProgram program className ⟨frames, .fatal, sourceFile⟩)
      (ofProgram program className ⟨frames, .report, sourceFile⟩) ∧
    (∀ a, ofProgram program className ⟨frames, .fatal, sourceFile⟩ = .ok a ↔
      ofProgram program className ⟨frames, .report, sourceFile⟩ = .ok a ∧ a.hasErrors = false) ∧
    ∀ name noted, ofProgram program className ⟨frames, .report, sourceFile⟩ ≠ .error ⟨.undeclared name, noted⟩ := by
  have hagree := agree_ofProgram program className frames sourceFile
  exact ⟨hagree, hagree.ok_iff, report_not_undeclared program className frames sourceFile⟩

end Artifact

end KnightCode
