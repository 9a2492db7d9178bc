import KnightCode.Proofs.FrameRecords
import KnightCode.Proofs.Integrity

/-!
# Branches and frames

A label gets a frame when some branch goes to it. So code that wants frames has a table of them just when it has a
branch.
-/

namespace KnightCode

def Call.isBranch : Call → Bool
  | .branch .. | .jump _ => true
  | _ => false

def Instruction.isBranch (i : Instruction) : Bool := (i.withOffset? 0).isSome

def Body.Targeted (b : Body) : Prop := ∃ (i : Nat) (l : Label), b.labels[i]? = some l ∧ l.referenced = true

/-! ## Calls that branch -/

theorem Body.targeted_modify {b b' : Body} {label : Nat} (f : Label → Label)
    (h : b'.labels = b.labels.modify label f) (hf : ∀ l, (f l).referenced = l.referenced) :
    b'.Targeted ↔ b.Targeted := by
  unfold Targeted
  simp only [h, Array.getElem?_modify]
  constructor
  · rintro ⟨i, l, hl, hr⟩
    split at hl
    · obtain ⟨l', hl', rfl⟩ := Option.map_eq_some_iff.1 hl
      exact ⟨i, l', hl', by rw [← hf]; exact hr⟩
    · exact ⟨i, l, hl, hr⟩
  · rintro ⟨i, l, hl, hr⟩
    by_cases hi : label = i
    · exact ⟨i, f l, by rw [if_pos hi, hl]; rfl, by rw [hf]; exact hr⟩
    · exact ⟨i, l, by rw [if_neg hi]; exact hl, hr⟩

theorem Body.targeted_branched {b b' : Body} {label : Nat} {l : Label} (f : Label → Label)
    (h : b'.labels = b.labels.modify label f) (hl : b.labels[label]? = some l) (hf : (f l).referenced = true) :
    b'.Targeted := by
  refine ⟨label, f l, ?_, hf⟩
  rw [h, Array.getElem?_modify, if_pos rfl, hl]
  rfl

/-- After a call, a label is the target of a branch if one was before or the call branches. -/
theorem Call.Effect.targeted {c : Call} {b b' : Body} (h : c.Effect b b') :
    b'.Targeted ↔ b.Targeted ∨ c.isBranch = true := by
  cases c with
  | newLabel =>
    obtain rfl := h
    simp only [isBranch, Bool.false_eq_true, or_false]
    constructor
    · rintro ⟨i, l, hl, hr⟩
      obtain rfl | hl := getElem?_push_cases hl
      · cases hr
      · exact ⟨i, l, hl, hr⟩
    · rintro ⟨i, l, hl, hr⟩
      obtain ⟨hlt, -⟩ := Array.getElem?_eq_some_iff.1 hl
      exact ⟨i, l, by rw [Array.getElem?_push, if_neg (by omega)]; exact hl, hr⟩
  | branch condition label =>
    obtain ⟨S, popped, l, -, -, hl, -, rfl⟩ := h
    refine ⟨fun _ => .inr rfl, fun _ => ?_⟩
    exact Body.targeted_branched (fun l => { l.join S b.locals with referenced := true }) rfl hl rfl
  | jump label =>
    obtain ⟨l, hl, -, rfl⟩ := h
    refine ⟨fun _ => .inr rfl, fun _ => ?_⟩
    exact Body.targeted_branched (fun l => { l.join b.stack b.locals with referenced := true }) rfl hl rfl
  | bind label =>
    have hkept : b'.Targeted ↔ b.Targeted := by
      obtain ⟨l, -, -, ⟨-, -, rfl⟩ | ⟨-, rfl⟩⟩ := h
      · exact Body.targeted_modify (fun l => { l.join b.stack b.locals with position := some b.items.size }) rfl
          fun _ => rfl
      · exact Body.targeted_modify (fun l => { l with position := some b.items.size }) rfl fun _ => rfl
    simp [hkept, isBranch]
  | _ =>
    obtain ⟨_, -, hadvances, -⟩ := h.advances rfl rfl
    simp [Body.Targeted, hadvances.labels, isBranch]

theorem Performs.targeted {calls : List Call} {b b' : Body} (h : Performs calls b b') :
    b'.Targeted ↔ b.Targeted ∨ ∃ c ∈ calls, c.isBranch = true := by
  induction h with
  | nil b => simp
  | @cons c calls b m b' first rest ih => rw [ih, first.targeted, or_assoc, List.exists_mem_cons_iff]

theorem Call.Emits.isBranch_eq {pool : ConstantPool} {c : Call} {item : Item} {b : Body} {address : Nat}
    {i : Instruction} (h : c.Emits pool item) (hi : b.Becomes address item i) : i.isBranch = c.isBranch := by
  cases c with
  | pushInt value =>
    obtain ⟨i, rfl, hloads⟩ := h
    cases hi
    unfold Instruction.LoadsInt at hloads
    split at hloads
    case h_6 => exact hloads.elim
    all_goals rfl
  | pushText text =>
    obtain ⟨i, rfl, hloads⟩ := h
    cases hi
    unfold Instruction.LoadsText at hloads
    split at hloads
    case h_3 => exact hloads.elim
    all_goals rfl
  | load slot kind => obtain rfl := h; cases hi; rfl
  | store slot kind => obtain rfl := h; cases hi; rfl
  | arithmetic op => obtain rfl := h; cases hi; rfl
  | newLabel => exact h.elim
  | bind label => exact h.elim
  | branch condition label => obtain rfl := h; cases hi; rfl
  | jump label => obtain rfl := h; cases hi; rfl
  | dup => obtain rfl := h; cases hi; rfl
  | _ => obtain ⟨_, rfl, -⟩ := h; cases hi; rfl

/-! ## Finished code -/

/-- In a body that can be finished, the targets of branches are bound. -/
theorem Body.targeted_iff {b : Body} {code : MethodCode} (h : b.finish = .ok code) (addressOf : Nat → Nat) :
    b.Targeted ↔ b.targetFrames addressOf ≠ [] := by
  rw [ne_eq, List.eq_nil_iff_forall_not_mem, not_forall]
  simp only [Classical.not_not, Body.mem_targetFrames]
  constructor
  · rintro ⟨i, l, hl, hr⟩
    -- Only a body whose targets are bound can be finished.
    obtain ⟨hlt, rfl⟩ := Array.getElem?_eq_some_iff.1 hl
    have hunbound := Array.findIdx?_eq_none_iff.1 (unresolved?_of_finish h) b.labels[i] (Array.getElem_mem hlt)
    simp only [hr, Bool.true_and, Option.isNone_eq_false_iff] at hunbound
    obtain ⟨p, hp⟩ := Option.isSome_iff_exists.1 hunbound
    exact ⟨_, i, _, p, hl, hr, hp, rfl⟩
  · rintro ⟨_, i, l, p, hl, hr, -⟩
    exact ⟨i, l, hl, hr⟩

namespace Artifact.Built

variable {pool : ConstantPool} {thisClass : UInt16} {entry : List VerificationType} {frames : Bool} {calls : List Call}
  {b : Body} {code : MethodCode}

theorem exists_branch_iff (h : Built pool thisClass entry frames calls b code) :
    (∃ i ∈ code.instructions, i.isBranch = true) ↔ ∃ c ∈ calls, c.isBranch = true := by
  constructor
  · rintro ⟨i, hi, hbranch⟩
    obtain rfl | ⟨call, hcall, item, address, hemits, hbecomes⟩ := h.call_of_mem hi
    · cases hbranch
    · exact ⟨call, hcall, by rw [← hemits.isBranch_eq hbecomes]; exact hbranch⟩
  · rintro ⟨c, hc, hbranch⟩
    obtain ⟨done, rest, hcalls⟩ := List.append_of_mem hc
    have hmark : c.isMark = false := by
      cases c with
      | newLabel => cases hbranch
      | bind label => cases hbranch
      | _ => rfl
    obtain ⟨item, i, hemits, hi, hbecomes⟩ := h.instruction hcalls hmark
    exact ⟨i, List.mem_of_getElem? hi, by rw [hemits.isBranch_eq hbecomes]; exact hbranch⟩

theorem isSome_frames_iff (h : Built pool thisClass entry true calls b code) :
    code.frames.isSome = true ↔ ∃ i ∈ code.instructions, i.isBranch = true := by
  have hwants : b.wantsFrames = true := (h.performs.continues h.wellFormed).wantsFrames
  have hstart : ¬(Body.start pool thisClass entry true).Targeted := by
    rintro ⟨i, l, hl, -⟩
    simp [Body.start] at hl
  have htargeted : b.Targeted ↔ ∃ c ∈ calls, c.isBranch = true := by
    rw [h.performs.targeted]
    simp [hstart]
  rw [h.exists_branch_iff, ← htargeted, Body.targeted_iff h.finish b.address, h.finished.frames, if_pos hwants,
    Frame.table?_eq]
  by_cases hnil : b.targetFrames b.address = [] <;> simp [hnil]

end Artifact.Built

end KnightCode
