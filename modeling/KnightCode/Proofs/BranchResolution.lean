import KnightCode.Proofs.Attempts
import KnightCode.Proofs.Resolution

/-!
# Resolution of branches

Whatever calls are made on a body, and whether they succeed or fail, its labels and its items go together: `Coherent` is
what every call keeps. So finishing the body fails only for a label that some branch goes to and that is not bound, for
code that is too long or for a branch that is too far, and otherwise every branch leads to the place of its label.
-/

namespace KnightCode

namespace Body

/-- The body can come about by calls, be it that some of them fail. -/
inductive Reached : Body → Prop
  | start (pool : ConstantPool) (thisClass : UInt16) (entryLocals : List VerificationType) (wantsFrames : Bool) :
      Reached (Body.start pool thisClass entryLocals wantsFrames)
  | call {b : Body} (h : Reached b) (c : Call) : Reached (lastState (c.perform b))

def Targets (b : Body) (label : Nat) : Prop := ∃ item ∈ b.items, item.label? = some label

def Lacks (b : Body) (label : Nat) : Prop := b.Targets label ∧ b.position? label = none

def TooFar (b : Body) (k : Nat) : Prop :=
  ∃ item label p, b.finalItems[k]? = some item ∧ item.label? = some label ∧ b.position? label = some p ∧
    ¬(-32768 ≤ (b.address p : Int) - b.address k ∧ (b.address p : Int) - b.address k ≤ 32767)

/-! ## What every call keeps -/

structure Coherent (b : Body) : Prop where
  size : b.SizeCounted
  referenced : ∀ i, (∃ l, b.labels[i]? = some l ∧ l.referenced = true) ↔ b.Targets i
  position : ∀ i p, b.position? i = some p → p < b.finalItems.length

theorem coherent_start (pool : ConstantPool) (thisClass : UInt16) (entryLocals : List VerificationType)
    (wantsFrames : Bool) : (Body.start pool thisClass entryLocals wantsFrames).Coherent where
  size := rfl
  referenced := by simp [Targets, Body.start]
  position := by simp [position?, Body.start]

variable {b b' : Body}

theorem Coherent.of_amends (h : b.Coherent) (hamends : b.Amends b') : b'.Coherent := by
  obtain ⟨code, hitems, hsize⟩ := hamends.code
  refine ⟨?_, ?_, ?_⟩
  · have hmap : (code.map Item.plain).map Item.instruction = code := by
      rw [List.map_map]
      exact List.map_id code
    rw [SizeCounted, hsize, h.size, hitems, Array.toList_append, List.map_append, hmap, codeSize_append]
  · intro i
    have hplain : ∀ item ∈ code.map Item.plain, item.label? ≠ some i := by simp [Item.label?]
    rw [hamends.labels, h.referenced i, Targets, Targets, hitems]
    grind
  · intro i p hp
    rw [position?, hamends.labels] at hp
    have := h.position i p hp
    rw [length_finalItems] at this
    rw [length_finalItems, hitems, hamends.reachable, Array.size_append]
    omega

theorem Coherent.of_branch (h : b.Coherent) {item : Item} {label : Nat} {l : Label} {f : Label → Label}
    (hitem : item.label? = some label) (hl : b.labels[label]? = some l) (hitems : b'.items = b.items.push item)
    (hsize : b'.size = b.size + item.instruction.size) (hlabels : b'.labels = b.labels.modify label f)
    (hf : ∀ l, (f l).referenced = true ∧ (f l).position = l.position) : b'.Coherent := by
  refine ⟨?_, ?_, ?_⟩
  · rw [SizeCounted, hsize, h.size, hitems]
    simp
  · intro i
    have htargets : b'.Targets i ↔ b.Targets i ∨ i = label := by
      simp [Targets, hitems, or_and_right, exists_or, hitem, eq_comm]
    rw [htargets, ← h.referenced i, hlabels, Array.getElem?_modify]
    by_cases hi : label = i
    · subst hi
      simp [hl, (hf l).1]
    · simp [hi, Ne.symm hi]
  · intro i p hp
    have hsame : b'.position? i = b.position? i := by
      rw [position?, position?, hlabels, Array.getElem?_modify]
      split
      · cases b.labels[i]? with
        | none => rfl
        | some l => exact (hf l).2
      · rfl
    have := h.position i p (hsame ▸ hp)
    rw [length_finalItems] at this
    rw [length_finalItems, hitems, Array.size_push]
    split at this <;> omega

theorem Coherent.of_bind (h : b.Coherent) {label : Nat} {f : Label → Label} (hitems : b'.items = b.items)
    (hsize : b'.size = b.size) (hlabels : b'.labels = b.labels.modify label f) (hreach : b'.reachable = true)
    (hf : ∀ l, (f l).referenced = l.referenced ∧ (f l).position = some b.items.size) : b'.Coherent := by
  refine ⟨?_, ?_, ?_⟩
  · rw [SizeCounted, hsize, h.size, hitems]
  · intro i
    rw [Targets, hitems, ← Targets, ← h.referenced i, hlabels, Array.getElem?_modify]
    split
    · cases b.labels[i]? with
      | none => simp
      | some l => simp [(hf l).1]
    · rfl
  · intro i p hp
    -- The end can be reached now, so that a return will stand where the label is bound.
    rw [length_finalItems, hitems, hreach, if_pos rfl]
    rw [position?, hlabels, Array.getElem?_modify] at hp
    split at hp
    · cases hl : b.labels[i]? with
      | none => simp [hl] at hp
      | some l =>
        simp [hl, (hf l).2] at hp
        omega
    · have := h.position i p hp
      rw [length_finalItems] at this
      split at this <;> omega

theorem Coherent.step (h : b.Coherent) (hstep : b.Step b') : b'.Coherent := by
  cases hstep with
  | amends hamends => exact h.of_amends hamends
  | newLabel heffect =>
    obtain rfl := heffect
    refine ⟨h.size, ?_, ?_⟩
    · intro i
      have htargets : Targets { b with labels := b.labels.push ⟨none, false, b.locals, none⟩ } i ↔ b.Targets i := Iff.rfl
      rw [htargets, ← h.referenced i, Array.getElem?_push]
      by_cases hi : i = b.labels.size
      · simp [hi]
      · simp [hi]
    · intro i p hp
      rw [position?, Array.getElem?_push] at hp
      split at hp
      · cases hp
      · exact h.position i p hp
  | branch heffect =>
    obtain ⟨S, popped, l, -, -, hl, -, rfl⟩ := heffect
    exact h.of_branch (f := fun l => { l.join S b.locals with referenced := true }) rfl hl rfl rfl rfl
      fun _ => ⟨rfl, rfl⟩
  | jump heffect =>
    obtain ⟨l, hl, -, rfl⟩ := heffect
    exact h.of_branch (f := fun l => { l.join b.stack b.locals with referenced := true }) rfl hl rfl rfl rfl
      fun _ => ⟨rfl, rfl⟩
  | bind heffect =>
    obtain ⟨l, -, -, ⟨hreach, -, rfl⟩ | ⟨-, rfl⟩⟩ := heffect
    · exact h.of_bind (f := fun l => { l.join b.stack b.locals with position := some b.items.size }) rfl rfl rfl hreach
        fun _ => ⟨rfl, rfl⟩
    · exact h.of_bind (f := fun l => { l with position := some b.items.size }) rfl rfl rfl rfl fun _ => ⟨rfl, rfl⟩

/-- Calls one after the other, each on what the last one left. -/
def attempt (b : Body) (calls : List Call) : Body := calls.foldl (fun b c => lastState (c.perform b)) b

theorem attempt_of_performAll {calls : List Call} (hrun : Call.performAll calls b = .ok () b') : b.attempt calls = b' := by
  induction calls generalizing b with
  | nil =>
    cases hrun
    rfl
  | cons c calls ih =>
    obtain ⟨m, hc, hrest⟩ := performAll_cons_eq_ok.1 hrun
    have hfirst : b.attempt (c :: calls) = m.attempt calls := by
      unfold attempt
      rw [List.foldl_cons, hc, lastState]
    rw [hfirst, ih hrest]

theorem Reached.attempt (h : b.Reached) (calls : List Call) : (b.attempt calls).Reached := by
  induction calls generalizing b with
  | nil => exact h
  | cons c calls ih => exact ih (h.call c)

theorem Reached.coherent (h : b.Reached) : b.Coherent := by
  induction h with
  | start pool thisClass entryLocals wantsFrames => exact coherent_start pool thisClass entryLocals wantsFrames
  | call _ c ih => exact ih.step (c.step _)

theorem coherent_of_performAll {pool : ConstantPool} {thisClass : UInt16} {entryLocals : List VerificationType}
    {wantsFrames : Bool} {calls : List Call}
    (hrun : Call.performAll calls (Body.start pool thisClass entryLocals wantsFrames) = .ok () b) : b.Coherent := by
  have hreached := (Reached.start pool thisClass entryLocals wantsFrames).attempt calls
  rw [attempt_of_performAll hrun] at hreached
  exact hreached.coherent

/-! ## Missing labels -/

theorem Coherent.lacks_iff (h : b.Coherent) {i : Nat} :
    b.Lacks i ↔ ∃ l, b.labels[i]? = some l ∧ (l.referenced && l.position.isNone) = true := by
  rw [Lacks, ← h.referenced i, position?]
  cases b.labels[i]? <;> simp

theorem Coherent.unresolved?_eq_some_iff (h : b.Coherent) {i : Nat} :
    b.unresolved? = some i ↔ b.Lacks i ∧ ∀ j, j < i → ¬b.Lacks j := by
  simp only [h.lacks_iff]
  rw [unresolved?, Array.findIdx?_eq_some_iff_getElem]
  constructor
  · rintro ⟨hi, hlacks, hleast⟩
    refine ⟨⟨_, Array.getElem?_eq_getElem hi, hlacks⟩, ?_⟩
    rintro j hj ⟨l, hl, hlacks'⟩
    obtain ⟨hsize, rfl⟩ := Array.getElem?_eq_some_iff.1 hl
    exact hleast j hj hlacks'
  · rintro ⟨⟨l, hl, hlacks⟩, hleast⟩
    obtain ⟨hi, rfl⟩ := Array.getElem?_eq_some_iff.1 hl
    refine ⟨hi, hlacks, ?_⟩
    intro j hj hlacks'
    exact hleast j hj ⟨_, Array.getElem?_eq_getElem (by omega), hlacks'⟩

theorem exists_position (hnone : ∀ i, ¬b.Lacks i) {k label : Nat} {item : Item} (hk : b.finalItems[k]? = some item)
    (hlabel : item.label? = some label) : ∃ p, b.position? label = some p := by
  have hmem : item ∈ b.items := by simpa using mem_items_of_label (List.mem_of_getElem? hk) hlabel
  cases hp : b.position? label with
  | none => exact absurd ⟨⟨item, hmem, hlabel⟩, hp⟩ (hnone label)
  | some p => exact ⟨p, rfl⟩

/-! ## Finishing -/

theorem Coherent.resolve_cases (h : b.Coherent) (hnone : ∀ i, ¬b.Lacks i) {k : Nat} {item : Item}
    (hk : b.finalItems[k]? = some item) :
    (¬b.TooFar k ∧ ∃ i, b.resolve b.addressOf item (b.address k) = .ok i) ∨
      (b.TooFar k ∧ ∃ fault, b.resolve b.addressOf item (b.address k) = .error (.code fault)) := by
  cases hlabel : item.label? with
  | none =>
    refine .inl ⟨?_, item.instruction, by simp [resolve, hlabel]⟩
    rintro ⟨item', label, p, hk', hlabel', -⟩
    rw [hk] at hk'
    cases hk'
    rw [hlabel] at hlabel'
    cases hlabel'
  | some label =>
    obtain ⟨p, hp⟩ := exists_position hnone hk hlabel
    have hfar : b.TooFar k ↔
        ¬(-32768 ≤ (b.address p : Int) - b.address k ∧ (b.address p : Int) - b.address k ≤ 32767) := by
      simp [TooFar, hk, hlabel, hp]
    have hbound : b.labels[label]?.bind (·.position) = some p := hp
    simp only [resolve, hlabel, hbound, addressOf_eq h.size, hfar]
    split
    · next hnear => exact .inl ⟨not_not_intro hnear, _, rfl⟩
    · next hfar => exact .inr ⟨hfar, _, rfl⟩

theorem Coherent.not_lacks (h : b.Coherent) (hu : b.unresolved? = none) (i : Nat) : ¬b.Lacks i := by
  rw [h.lacks_iff]
  rintro ⟨l, hl, hlacks⟩
  have hall := Array.findIdx?_eq_none_iff.1 hu l (Array.mem_of_getElem? hl)
  rw [hall] at hlacks
  cases hlacks

theorem Coherent.finish_cases (h : b.Coherent) :
    (∃ i, b.unresolved? = some i ∧ b.finish = .error (.unresolvedLabel i)) ∨
      (b.unresolved? = none ∧ (65535 < b.finalSize ∨ ∃ k, b.TooFar k) ∧ ∃ fault, b.finish = .error (.code fault)) ∨
      (b.unresolved? = none ∧ b.finalSize ≤ 65535 ∧ (∀ k, ¬b.TooFar k) ∧ ∃ code, b.finish = .ok code) := by
  have hending := b.finish_ending
  generalize b.finish = result at hending
  cases hending with
  | @unresolved i hlabel => exact .inl ⟨i, hlabel, rfl⟩
  | tooLarge hbound hlarge => exact .inr (.inl ⟨hbound, .inl hlarge, _, rfl⟩)
  | @refused k item fault hbound _ hk hfault =>
    -- Nothing but its distance keeps an item from being resolved.
    obtain ⟨-, i, hi⟩ | ⟨hfar, f, hf⟩ := h.resolve_cases (h.not_lacks hbound) hk
    · rw [hfault] at hi
      cases hi
    · rw [hfault] at hf
      cases hf
      exact .inr (.inl ⟨hbound, .inr ⟨k, hfar⟩, f, rfl⟩)
  | finished hbound hsize _ hitems =>
    refine .inr (.inr ⟨hbound, hsize, ?_, _, rfl⟩)
    rintro k hfar
    obtain ⟨item, -, -, hk, -⟩ := id hfar
    obtain ⟨hnear, -⟩ | ⟨-, f, hf⟩ := h.resolve_cases (h.not_lacks hbound) hk
    · exact hnear hfar
    · obtain ⟨i, -, hi⟩ := hitems k item hk
      rw [hi] at hf
      cases hf

theorem Coherent.finish_eq_unresolved_iff (h : b.Coherent) {i : Nat} :
    b.finish = .error (.unresolvedLabel i) ↔ b.unresolved? = some i := by
  obtain ⟨j, hu, hfinish⟩ | ⟨hu, -, fault, hfinish⟩ | ⟨hu, -, -, code, hfinish⟩ := h.finish_cases
  · simp [hu, hfinish]
  · simp [hu, hfinish]
  · simp [hu, hfinish]

/-- The items of a body as finished code: only offsets have been filled in, every bound label is at an instruction, and
from the address of a branch its offset leads to the place of its label. -/
structure Resolved (b : Body) (code : List Instruction) : Prop where
  length : code.length = b.finalItems.length
  instruction : ∀ (k : Nat) (item : Item), b.finalItems[k]? = some item →
    ∃ offset, code[k]? = some (item.withOffset offset) ∧ ∀ label, item.label? = some label →
      ∃ p, b.position? label = some p ∧
        ((assemble (code.take k)).length : Int) + offset.toInt = (assemble (code.take p)).length
  position : ∀ label p, b.position? label = some p → p < code.length

theorem Finished.resolved {code : MethodCode} (h : b.Finished code) (hcoherent : b.Coherent) :
    b.Resolved code.instructions where
  length := h.length
  instruction := by
    intro k item hk
    obtain ⟨i, hi, hbecomes⟩ := h.becomes k item hk
    simp only [length_assemble, h.codeSize_take]
    cases hbecomes with
    | plain _ => exact ⟨0, hi, by simp [Item.label?]⟩
    | branch condition hp hoffset =>
      refine ⟨_, hi, ?_⟩
      rintro _ ⟨⟩
      exact ⟨_, hp, by omega⟩
    | jump hp hoffset =>
      refine ⟨_, hi, ?_⟩
      rintro _ ⟨⟩
      exact ⟨_, hp, by omega⟩
  position := by
    intro label p hp
    rw [h.length]
    exact hcoherent.position label p hp

/-- Finishing a body that calls have led to fails with the first label that a branch goes to and that is not bound; else
it fails exactly if the code, with a return at a reachable end, is too long or a branch is too far; else it resolves the
items of the body. -/
theorem finish_resolves_branches (h : b.Reached) :
    (∀ i, b.finish = .error (.unresolvedLabel i) ↔ b.Lacks i ∧ ∀ j, j < i → ¬b.Lacks j) ∧
      ((∀ i, ¬b.Lacks i) →
        ((∃ fault, b.finish = .error (.code fault)) ↔
            65535 < (assemble (b.finalItems.map Item.instruction)).length ∨ ∃ k, b.TooFar k) ∧
          ((assemble (b.finalItems.map Item.instruction)).length ≤ 65535 → (∀ k, ¬b.TooFar k) →
            ∃ code, b.finish = .ok code ∧ b.Resolved code.instructions)) := by
  have hcoherent := h.coherent
  have hlength : (assemble (b.finalItems.map Item.instruction)).length = b.finalSize := by
    rw [length_assemble, hcoherent.size.finalSize]
  rw [hlength]
  refine ⟨fun i => hcoherent.finish_eq_unresolved_iff.trans hcoherent.unresolved?_eq_some_iff, fun hnone => ?_⟩
  obtain ⟨i, hu, -⟩ | ⟨-, hbad, fault, hfinish⟩ | ⟨-, hsize, hnear, code, hfinish⟩ := hcoherent.finish_cases
  · exact absurd (hcoherent.unresolved?_eq_some_iff.1 hu).1 (hnone i)
  · refine ⟨iff_of_true ⟨fault, hfinish⟩ hbad, ?_⟩
    intro hsize hnear
    rcases hbad with hlong | ⟨k, hfar⟩
    · omega
    · exact absurd hfar (hnear k)
  · have hresolved := (finish_eq_ok hcoherent.size hfinish).resolved hcoherent
    refine ⟨?_, fun _ _ => ⟨code, hfinish, hresolved⟩⟩
    simp [hfinish, hsize, hnear]

/-- Two jumps that lead to each other. A jump to a label that does not exist fails between them. -/
def jumping : Body :=
  (Body.start .empty 0 [] false).attempt [.newLabel, .newLabel, .bind 0, .jump 1, .bind 1, .jump 9, .jump 0]

theorem finish_resolves_branches_jumping :
    jumping.Reached ∧ ∃ code, jumping.finish = .ok code ∧ jumping.Resolved code.instructions := by
  have hreached : jumping.Reached := (Reached.start .empty 0 [] false).attempt _
  have hitems : jumping.items = #[.jump 1, .jump 0] := rfl
  have hnone : ∀ i, ¬jumping.Lacks i := by
    rintro i ⟨⟨item, hmem, hlabel⟩, hp⟩
    rw [hitems] at hmem
    obtain rfl | rfl : item = .jump 1 ∨ item = .jump 0 := by simpa using hmem
    · cases hlabel
      cases hp
    · cases hlabel
      cases hp
  have hnear : ∀ k, ¬jumping.TooFar k := by
    rintro k ⟨item, label, p, hk, hlabel, hp, hfar⟩
    obtain rfl | rfl : k = 0 ∨ k = 1 := by
      have hlt : k < 2 := (List.getElem?_eq_some_iff.1 hk).1
      omega
    · cases hk
      cases hlabel
      cases hp
      exact hfar (by decide)
    · cases hk
      cases hlabel
      cases hp
      exact hfar (by decide)
  exact ⟨hreached, ((finish_resolves_branches hreached).2 hnone).2 (by decide) hnear⟩

end Body

end KnightCode
