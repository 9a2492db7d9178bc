import KnightCode.Proofs.Correspondence
import KnightCode.Proofs.Planning

/-!
# Remembered values

A scope table remembers the literal that was last assigned to each variable, and nothing depends on it. Sessions whose
tables differ in the values alone do the same and fail alike, and afterwards their tables differ in the values alone.
-/

namespace KnightCode

/-! ## Plans -/

theorem Variable.like_of_fixed {v v' : Variable} (h : v'.fixed = v.fixed) : Variable.Like id v v' := by
  simp only [fixed, Prod.mk.injEq] at h
  exact ⟨h.1, h.2.1, h.2.2⟩

theorem ScopeTable.SameButValues.corresponds {t t' : ScopeTable} (h : t.SameButValues t') (used : List String) :
    ScopeTable.Corresponds id used t t' where
  nextSlot := h.nextSlot
  known := by simp [h.known]
  lookup := by
    intro x _
    have hfixed := h.lookup? x
    rw [id]
    cases hv : t.lookup? x with
    | none =>
      rw [hv, Option.map_none, Option.map_eq_none_iff] at hfixed
      rw [hfixed]
      exact .none
    | some v =>
      rw [hv, Option.map_some, Option.map_eq_some_iff] at hfixed
      obtain ⟨v', hv', heq⟩ := hfixed
      rw [hv']
      exact .some (Variable.like_of_fixed heq)

/-! ## Sessions -/

namespace Session

/-- The sessions are the same but for the values that their scope tables remember. -/
structure SameButValues (s s' : Session) : Prop where
  className : s'.className = s.className
  policy : s'.policy = s.policy
  body : s'.body = s.body
  scope : s.scope.SameButValues s'.scope
  notices : s'.notices = s.notices
  readsInput : s'.readsInput = s.readsInput

theorem onBody_respects {α : Type} (work : Build α) : Respects SameButValues (onBody work) := by
  intro s s' h
  simp only [onBody, h.body]
  cases work s.body with
  | ok a b => exact .ok a ⟨h.className, h.policy, rfl, h.scope, h.notices, h.readsInput⟩
  | error fault b => exact .error fault ⟨h.className, h.policy, rfl, h.scope, h.notices, h.readsInput⟩

theorem onScope_respects {α : Type} {work : Scoping α} (hwork : Respects ScopeTable.SameButValues work) :
    Respects SameButValues (onScope work) := by
  intro s s' h
  have hscope := hwork s.scope s'.scope h.scope
  simp only [onScope]
  generalize work s.scope = result at hscope ⊢
  generalize work s'.scope = result' at hscope ⊢
  cases hscope with
  | ok a related => exact .ok a ⟨h.className, h.policy, h.body, related, h.notices, h.readsInput⟩
  | error fault related => exact .error fault ⟨h.className, h.policy, h.body, related, h.notices, h.readsInput⟩

theorem carryOut_respects (a : Action) : Respects SameButValues (carryOut a) := by
  cases a with
  | call c => exact onBody_respects c.perform
  | notice n =>
    intro s s' h
    exact .ok () ⟨h.className, h.policy, h.body, h.scope, congrArg (·.push n) h.notices, h.readsInput⟩
  | declare name type =>
    exact onScope_respects ((ScopeTable.declare_respects name type _).bind fun _ => .of_pure ())
  | remember name value => exact onScope_respects (ScopeTable.set_respects name value)
  | readsInput =>
    intro s s' h
    exact .ok () ⟨h.className, h.policy, h.body, h.scope, h.notices, rfl⟩
  | fail fault =>
    intro s s' h
    exact .error fault h

theorem SameButValues.plan_eq {s s' : Session} (h : s.SameButValues s') (program : Program) :
    program.plan s'.setting s'.emptyPlan = program.plan s.setting s.emptyPlan := by
  have hsettings : Setting.Corresponds id id program.variables s.setting s'.setting := by
    refine ⟨by constructor <;> intros <;> rfl, h.className, h.scope.corresponds _, ?_⟩
    intro x p
    simp only [Setting.undeclared, setting, h.policy]
    cases s.policy <;> exact p.mapped_act _ _
  have hid : ∀ p : Plan, p.mapped id = p := fun p => by simp [Plan.mapped]
  have hplan := hsettings.programPlan (fun _ _ _ _ => id) s.emptyPlan
  rw [program.renamed_id, hid, hid] at hplan
  rw [hplan, emptyPlan, emptyPlan, h.body]

/-- Compiling depends on no remembered value. In sessions that are the same but for such values, a program gives the same
result, be it a fault, and leaves sessions that are the same but for such values: with the same body, which has the
instructions, the labels, the simulated stack and locals and the constant pool, and with the same notices. -/
theorem values_have_no_influence (program : Program) {s s' : Session} (h : s.SameButValues s') :
    SameEnd SameButValues (compileProgram program s) (compileProgram program s') := by
  rw [compileProgram_planned, compileProgram_planned, h.plan_eq]
  exact Respects.forM carryOut_respects s s' h

def remembering (value : Value) : Session :=
  ⟨"A", .report, .start .empty 0 [] true, .after .empty [.declare "x" .integer value, .enter], #[], false⟩

/-- Assigns literals in nested blocks, and prints a variable that is not declared. -/
def assigning : Program :=
  ⟨"p", some [⟨.text, "y"⟩],
    [.setExpr "x" (.number 7), .ifElse ⟨.name "x", .less, .number 1⟩ [.setText "y" "a"]
      [.printName "z", .setExpr "x" (.name "y")]]⟩

theorem values_have_no_influence_assigning :
    (remembering (.integer 0)).SameButValues (remembering (.text "b")) ∧ ∃ r r',
      compileProgram assigning (remembering (.integer 0)) = .ok () r ∧
      compileProgram assigning (remembering (.text "b")) = .ok () r' ∧ r.SameButValues r' := by
  have hsame : (remembering (.integer 0)).SameButValues (remembering (.text "b")) :=
    ⟨rfl, rfl, rfl, ⟨by decide +kernel, by decide +kernel⟩, rfl, rfl⟩
  obtain ⟨r, hr⟩ : ∃ r, compileProgram assigning (remembering (.integer 0)) = .ok () r :=
    exists_ok_of_run' (by decide +kernel)
  have hend := values_have_no_influence assigning hsame
  rw [hr] at hend
  obtain ⟨r', hr', hrelated⟩ := hend.of_ok
  exact ⟨hsame, r, r', hr, hr', hrelated⟩

end Session

end KnightCode
