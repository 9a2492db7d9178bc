import KnightCode.Proofs.Declarations
import KnightCode.Proofs.Discipline

/-!
# The start of a body

Before its first statement a program gives every variable its value. These calls are typed, and after them each variable
has a local variable of its own type.
-/

namespace KnightCode

theorem Body.assigned_next {b : Body} {slot : UInt16} (h : slot.toNat = b.locals.size) (t : VerificationType) :
    (b.assigned slot t).locals = b.locals.push t := by
  apply Array.ext'
  simp [Body.assigned, h, List.set_append_right]

/-- Local variables have been added, one for each new variable. -/
structure Body.Opens (b b' : Body) (vars : List Variable) : Prop where
  reachable : b'.reachable = true
  stack : b'.stack = b.stack
  labels : b'.labels = b.labels
  size : b'.locals.size = b.locals.size + vars.length
  kept : ∀ i, i < b.locals.size → b'.locals[i]? = b.locals[i]?
  holds : ∀ v ∈ vars, ∃ t, b'.locals[v.slot.toNat]? = some t ∧ v.type.Stands b'.pool t

theorem defaultCalls_eq (v : Variable) : defaultCalls v = [pushDefault v.type, .store v.slot v.type.kind] := by
  unfold defaultCalls
  cases v.type <;> rfl

/-- Only the pool can make the calls fail. They are typed and make no labels, and `good` holds of what they leave. -/
def Starts (calls : List Call) (b : Body) (good : Body → Prop) : Prop :=
  Yields (Call.performAll calls) b
    (fun _ b' => Performs calls b b' ∧ (b.labels = #[] → b'.labels = #[] ∧ ∀ L, TypedRun L calls b b') ∧ good b')
    Fault.IsPool

theorem Starts.append {first second : List Call} {b : Body} {mid good : Body → Prop} (hfirst : Starts first b mid)
    (hsecond : ∀ m, Performs first b m → mid m → Starts second m good) : Starts (first ++ second) b good := by
  rw [Starts, Call.performAll_append]
  refine hfirst.bind ?_
  rintro _ m ⟨hm, hmtyped, hmid⟩
  refine (hsecond m hm hmid).imp ?_
  rintro _ b' ⟨hb', htyped, hgood⟩
  refine ⟨performs_append.2 ⟨m, hm, hb'⟩, ?_, hgood⟩
  intro hlabels
  obtain ⟨hmlabels, hmrun⟩ := hmtyped hlabels
  obtain ⟨hblabels, hbrun⟩ := htyped hmlabels
  exact ⟨hblabels, fun L => (hmrun L).append (hbrun L)⟩

theorem Starts.call {c : Call} {b : Body} {good : Body → Prop} (wf : b.pool.WellFormed) (ready : c.Ready b)
    (typed : c.Typed b) (hlabel : c ≠ .newLabel ∧ c.label? = none) (hgood : ∀ b', c.Effect b b' → good b') :
    Starts [c] b good := by
  have hrun : Call.performAll [c] = (do c.perform; pure ()) := rfl
  rw [Starts, hrun]
  refine ((c.behaves wf).mono (fun _ _ => id) fun f hf => hf.resolve_right (not_not_intro ready)).bind ?_
  intro _ b' heffect
  refine Yields.of_pure ⟨.cons heffect (.nil b'), ?_, hgood b' heffect⟩
  intro hlabels
  have hsame : b'.labels = #[] := by
    obtain ⟨hnew, -⟩ | ⟨i, _, _, hi, -⟩ | ⟨-, -, heq, -⟩ := heffect.labels
    · exact absurd hnew hlabel.1
    · rw [hlabel.2] at hi
      cases hi
    · rw [heq, hlabels]
  exact ⟨hsame, fun L =>
    .cons (b.settled_of_no_labels hlabels L) typed heffect (.nil (b'.settled_of_no_labels hsame L))⟩

theorem pushDefault_starts (type : VarType) {b : Body} (wf : b.pool.WellFormed) (hreach : b.reachable = true) :
    Starts [pushDefault type] b fun m => m.reachable = true ∧ m.locals = b.locals ∧ m.labels = b.labels ∧
      ∃ t, m.stack = b.stack.push t ∧ type.Stands m.pool t := by
  cases type with
  | integer =>
    refine .call wf trivial hreach ⟨nofun, rfl⟩ ?_
    rintro m ⟨pool, i, -, -, rfl⟩
    exact ⟨hreach, rfl, rfl, .integer, rfl, rfl⟩
  | text =>
    refine .call wf trivial hreach ⟨nofun, rfl⟩ ?_
    rintro m ⟨pool, i, c, -, -, hc, rfl⟩
    exact ⟨hreach, rfl, rfl, .object c, rfl, c, rfl, hc⟩

theorem default_starts {v : Variable} {b : Body} (wf : b.pool.WellFormed) (hreach : b.reachable = true)
    (hslot : v.slot.toNat = b.locals.size) :
    Starts (defaultCalls v) b fun b' => b.Opens b' [v] := by
  rw [defaultCalls_eq, ← List.singleton_append]
  refine (pushDefault_starts v.type wf hreach).append ?_
  rintro m hm ⟨hreach, hlocals, hlabels, t, hstack, ht⟩
  have hwf := (hm.continues wf).wellFormed
  refine .call hwf (by simp [Call.Ready, hstack]) ⟨hreach, b.stack, t, hstack, ht.hasKind⟩ ⟨nofun, rfl⟩ ?_
  rintro b' ⟨S, u, hS, rfl⟩
  rw [hstack] at hS
  obtain ⟨rfl, rfl⟩ := Array.push_eq_push.1 hS
  have hpush : (((m.added m.pool (.plain (.store v.type.kind (.ofIndex v.slot))) b.stack).assigned v.slot
      t).touched v.slot).locals = b.locals.push t := by
    rw [← hlocals]
    exact Body.assigned_next (b := m.added _ _ _) (by rw [hslot, ← hlocals]; rfl) t
  refine ⟨hreach, rfl, hlabels, by rw [hpush]; simp, ?_, ?_⟩
  · intro i hi
    rw [hpush, Array.getElem?_push, if_neg (by omega)]
  · intro w hw
    obtain rfl := List.mem_singleton.1 hw
    exact ⟨t, by rw [hpush, hslot]; simp, ht⟩

theorem Body.Opens.trans {a b c : Body} {first second : List Variable} (hab : a.Opens b first) (hbc : b.Opens c second)
    (hc : b.Continues c) : a.Opens c (first ++ second) where
  reachable := hbc.reachable
  stack := hbc.stack.trans hab.stack
  labels := hbc.labels.trans hab.labels
  size := by rw [hbc.size, hab.size, List.length_append, Nat.add_assoc]
  kept := by
    intro i hi
    have hsize := hab.size
    rw [hbc.kept i (by omega), hab.kept i hi]
  holds := by
    intro v hv
    rcases List.mem_append.1 hv with hv | hv
    · obtain ⟨t, ht, hstands⟩ := hab.holds v hv
      obtain ⟨hlt, -⟩ := Array.getElem?_eq_some_iff.1 ht
      exact ⟨t, by rw [hbc.kept _ hlt, ht], hstands.mono hc.pool.1⟩
    · exact hbc.holds v hv

theorem defaults_start (vars : List Variable) {b : Body} (wf : b.pool.WellFormed) (hreach : b.reachable = true)
    (hslots : ∀ i v, vars[i]? = some v → v.slot.toNat = b.locals.size + i) :
    Starts (vars.flatMap defaultCalls) b fun b' => b.Opens b' vars := by
  -- On the variables, from any body whose locals end where the next slot begins.
  induction vars generalizing b with
  | nil =>
    refine Yields.of_pure ⟨.nil b, fun hlabels => ⟨hlabels, fun L => .nil (b.settled_of_no_labels hlabels L)⟩, hreach,
      rfl, rfl, rfl, fun _ _ => rfl, ?_⟩
    simp
  | cons v vars ih =>
    rw [List.flatMap_cons]
    refine (default_starts wf hreach (hslots 0 v rfl)).append ?_
    intro m hm hopens
    have hwf := (hm.continues wf).wellFormed
    refine (ih hwf hopens.reachable ?_).imp ?_
    · intro i w hw
      rw [hopens.size, hslots (i + 1) w hw]
      simp
      omega
    · rintro _ b' ⟨hperforms, hrun, hopens'⟩
      exact ⟨hperforms, hrun, hopens.trans hopens' (hperforms.continues hwf)⟩

end KnightCode
