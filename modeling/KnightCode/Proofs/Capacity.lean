import KnightCode.Proofs.Slots

/-!
# How much a body holds

Every value on an operand stack was pushed by an instruction, and every label that branches go to has a branch of three
bytes. So the code bounds the operand stacks and the number of frames, and the stored maxima, which are words, are
exact.
-/

namespace KnightCode

theorem countP_modify_le {α : Type} {p : α → Bool} {f : α → α} {k : Nat}
    (hf : k = 0 → ∀ a, p (f a) = true → p a = true) (l : List α) (i : Nat) :
    (l.modify i f).countP p ≤ l.countP p + k := by
  induction l generalizing i with
  | nil => simp
  | cons a l ih =>
    cases i with
    | zero =>
      rw [List.modify_zero_cons, List.countP_cons, List.countP_cons]
      rcases Nat.eq_zero_or_pos k with hk | hk
      · have := hf hk a
        split <;> simp_all
      · split <;> omega
    | succ i =>
      rw [List.modify_succ_cons, List.countP_cons, List.countP_cons]
      have := ih i
      omega

namespace Body

def targets (b : Body) : Nat := b.labels.toList.countP (·.referenced)

/-- The body has this operand stack now, or at one of its labels. -/
def Knows (b : Body) (S : Types) : Prop :=
  S = b.stack ∨ ∃ (i : Nat) (l : Label), b.labels[i]? = some l ∧ l.stack = some S

/-- What a call costs. A value that is pushed takes a byte at least, and a branch takes three. -/
structure Spends (b b' : Body) : Prop where
  size : b.size ≤ b'.size
  maxStack : b.maxStack.toNat ≤ b'.maxStack.toNat
  maxLocals : b.maxLocals.toNat ≤ b'.maxLocals.toNat
  known : ∀ S, b'.Knows S → ∃ T, b.Knows T ∧
    S.size + 3 * b'.targets + b.size ≤ T.size + 3 * b.targets + b'.size ∧
    (S.size ≤ T.size ∨ S.size % 65536 ≤ b'.maxStack.toNat)

variable {b b' : Body}

theorem Advances.spends {i : Instruction} (h : b.Advances b' i) : b.Spends b' := by
  have hsize : b.size + 1 ≤ b'.size := by
    rw [h.size]
    exact Nat.add_le_add_left i.size_pos _
  have htargets : b'.targets = b.targets := by rw [targets, h.labels, targets]
  have hstack : b'.stack.size ≤ b.stack.size + 1 ∧ b.maxStack.toNat ≤ b'.maxStack.toNat ∧
      (b'.stack.size ≤ b.stack.size ∨ b'.stack.size % 65536 ≤ b'.maxStack.toNat) := by
    obtain ⟨hle, hmax⟩ | ⟨S, t, hle, hpush, hmax⟩ := h.stack
    · exact ⟨by omega, Nat.le_of_eq (by rw [hmax]), .inl hle⟩
    · have hword : (S.size + 1).toUInt16.toNat = (S.size + 1) % 65536 := rfl
      rw [hpush, hmax, toNat_max, Array.size_push, hword]
      exact ⟨by omega, Nat.le_max_left _ _, .inr (Nat.le_max_right _ _)⟩
  refine ⟨by omega, hstack.2.1, h.maxLocals, ?_⟩
  rintro S (rfl | ⟨i, l, hl, hS⟩)
  · exact ⟨b.stack, .inl rfl, by omega, hstack.2.2⟩
  · rw [h.labels] at hl
    exact ⟨S, .inr ⟨i, l, hl, hS⟩, by omega, .inl (Nat.le_refl _)⟩

theorem targets_modify_le {i k : Nat} {f : Label → Label} (hlabels : b'.labels = b.labels.modify i f)
    (hkept : k = 0 → ∀ l, (f l).referenced = l.referenced) : b'.targets ≤ b.targets + k := by
  rw [targets, hlabels, Array.toList_modify]
  exact countP_modify_le (fun hk l => by rw [hkept hk]; exact id) _ i

theorem Spends.of_modify {i : Nat} (f : Label → Label) (k : Nat) (hlabels : b'.labels = b.labels.modify i f)
    (hsize : b'.size = b.size + 3 * k) (hkept : k = 0 → ∀ l, (f l).referenced = l.referenced)
    (hmaxStack : b'.maxStack = b.maxStack) (hmaxLocals : b'.maxLocals = b.maxLocals)
    (hstack : ∃ T, b.Knows T ∧ b'.stack.size ≤ T.size)
    (hlabel : ∀ l S, b.labels[i]? = some l → (f l).stack = some S → ∃ T, b.Knows T ∧ S.size ≤ T.size) :
    b.Spends b' := by
  have htargets := targets_modify_le hlabels hkept
  refine ⟨by omega, Nat.le_of_eq (by rw [hmaxStack]), Nat.le_of_eq (by rw [hmaxLocals]), ?_⟩
  have hknown : ∀ S, b'.Knows S → ∃ T, b.Knows T ∧ S.size ≤ T.size := by
    rintro S (rfl | ⟨j, l, hl, hS⟩)
    · exact hstack
    · rw [hlabels] at hl
      obtain ⟨-, l', hl', rfl⟩ | ⟨-, hl⟩ := getElem?_modify_cases hl
      · exact hlabel l' S hl' hS
      · exact ⟨S, .inr ⟨j, l, hl, hS⟩, Nat.le_refl _⟩
  intro S hS
  obtain ⟨T, hT, hle⟩ := hknown S hS
  exact ⟨T, hT, by omega, .inl hle⟩

end Body

open Body in
theorem Call.Effect.spends {c : Call} {b b' : Body} (h : c.Effect b b') : b.Spends b' := by
  have hown : ∃ T, b.Knows T ∧ b.stack.size ≤ T.size := ⟨b.stack, .inl rfl, Nat.le_refl _⟩
  cases c with
  | newLabel =>
    obtain rfl := h
    refine ⟨Nat.le_refl _, Nat.le_refl _, Nat.le_refl _, ?_⟩
    have htargets : targets { b with labels := b.labels.push ⟨none, false, b.locals, none⟩ } = b.targets := by
      simp [targets]
    rintro S (rfl | ⟨i, l, hl, hS⟩)
    · exact ⟨b.stack, .inl rfl, Nat.le_of_eq (by rw [htargets]), .inl (Nat.le_refl _)⟩
    · obtain rfl | hl := getElem?_push_cases hl
      · cases hS
      · exact ⟨S, .inr ⟨i, l, hl, hS⟩, Nat.le_of_eq (by rw [htargets]), .inl (Nat.le_refl _)⟩
  | branch condition label =>
    obtain ⟨S, popped, l, -, hS, -, -, rfl⟩ := h
    have hleft : ∃ T, b.Knows T ∧ S.size ≤ T.size := ⟨b.stack, .inl rfl, by simp [hS]⟩
    refine .of_modify (fun l => { l.join S b.locals with referenced := true }) 1 rfl rfl nofun rfl rfl hleft ?_
    rintro l T - hT
    cases hT
    exact hleft
  | jump label =>
    obtain ⟨l, -, -, rfl⟩ := h
    refine .of_modify (fun l => { l.join b.stack b.locals with referenced := true }) 1 rfl rfl nofun rfl rfl
      ⟨b.stack, .inl rfl, Nat.zero_le _⟩ ?_
    rintro l T - hT
    cases hT
    exact hown
  | bind label =>
    obtain ⟨l, hl, -, ⟨-, -, rfl⟩ | ⟨-, rfl⟩⟩ := h
    · refine .of_modify (fun l => { l.join b.stack b.locals with position := some b.items.size }) 0 rfl rfl
        (fun _ _ => rfl) rfl rfl hown ?_
      rintro l T - hT
      cases hT
      exact hown
    · refine .of_modify (fun l => { l with position := some b.items.size }) 0 rfl rfl (fun _ _ => rfl) rfl rfl ?_ ?_
      · cases hstack : l.stack with
        | none => exact ⟨b.stack, .inl rfl, Nat.zero_le _⟩
        | some S => exact ⟨S, .inr ⟨label, l, hl, hstack⟩, Nat.le_refl _⟩
      · intro l' S hl' hS
        exact ⟨S, .inr ⟨label, l', hl', hS⟩, Nat.le_refl _⟩
  | _ =>
    obtain ⟨i, -, hadvances, -⟩ := h.advances rfl rfl
    exact hadvances.spends

/-! ## Runs -/

/-- Beside `k` bytes there are three for each label that branches go to, and one for each value on an operand stack. -/
def Body.Thrifty (k : Nat) (b : Body) : Prop := ∀ S, b.Knows S → k + 3 * b.targets + S.size ≤ b.size

def Body.Deep (b : Body) : Prop := ∀ S, b.Knows S → S.size ≤ b.maxStack.toNat

section Runs

variable {calls : List Call} {b b' : Body}

theorem Performs.size_le (h : Performs calls b b') : b.size ≤ b'.size := by
  induction h with
  | nil b => exact Nat.le_refl _
  | cons first _ ih => exact Nat.le_trans first.spends.size ih

theorem Performs.maxStack_le (h : Performs calls b b') : b.maxStack.toNat ≤ b'.maxStack.toNat := by
  induction h with
  | nil b => exact Nat.le_refl _
  | cons first _ ih => exact Nat.le_trans first.spends.maxStack ih

theorem Performs.maxLocals_le (h : Performs calls b b') : b.maxLocals.toNat ≤ b'.maxLocals.toNat := by
  induction h with
  | nil b => exact Nat.le_refl _
  | cons first _ ih => exact Nat.le_trans first.spends.maxLocals ih

theorem Body.Spends.thrifty {k : Nat} (h : b.Spends b') (hb : b.Thrifty k) : b'.Thrifty k := by
  intro S hS
  obtain ⟨T, hT, hcost, -⟩ := h.known S hS
  have := hb T hT
  omega

theorem Performs.thrifty {k : Nat} (h : Performs calls b b') (hb : b.Thrifty k) : b'.Thrifty k := by
  induction h with
  | nil b => exact hb
  | cons first _ ih => exact ih (first.spends.thrifty hb)

/-- The depth of a stack fits a word, since the code does. -/
theorem Performs.deep (h : Performs calls b b') (hb : b.Thrifty 0) (hdeep : b.Deep) (hsize : b'.size < 65536) :
    b'.Deep := by
  induction h with
  | nil b => exact hdeep
  | cons first rest ih =>
    have hspends := first.spends
    have hthrifty := hspends.thrifty hb
    refine ih hthrifty ?_ hsize
    intro S hS
    obtain ⟨T, hT, -, hle | hle⟩ := hspends.known S hS
    · exact Nat.le_trans hle (Nat.le_trans (hdeep T hT) hspends.maxStack)
    · have := hthrifty S hS
      have := rest.size_le
      omega

theorem Performs.slot_lt (h : Performs calls b b') {call : Call} (hcall : call ∈ calls) {slot : UInt16}
    (hslot : call.slot? = some slot) (hroom : slot.toNat + 1 < 65536) : slot.toNat < b'.maxLocals.toNat := by
  induction h with
  | nil b => cases hcall
  | @cons c calls b m b' first rest ih =>
    rcases List.mem_cons.1 hcall with rfl | hcall
    · have htouched : slot.toNat + 1 ≤ m.maxLocals.toNat := by
        have hmax : ∀ n : UInt16, slot.toNat + 1 ≤ (max n (slot + 1)).toNat := by
          intro n
          rw [toNat_max, UInt16.toNat_add, UInt16.toNat_one, Nat.mod_eq_of_lt hroom]
          exact Nat.le_max_right _ _
        cases call with
        | load s kind =>
          cases hslot
          obtain ⟨pool, t, -, -, rfl⟩ := first
          exact hmax _
        | store s kind =>
          cases hslot
          obtain ⟨S, t, -, rfl⟩ := first
          exact hmax _
        | _ => cases hslot
      exact Nat.lt_of_lt_of_le htouched rest.maxLocals_le
    · exact ih hcall

theorem Performs.itemCount_le (h : Performs calls b b') : b.size + itemCount calls ≤ b'.size := by
  induction h with
  | nil b => exact Nat.le_refl _
  | cons first _ ih =>
    obtain ⟨hmark, -, hsize⟩ | ⟨hitem, item, -, -, hsize⟩ := first.adds
    · rw [itemCount_mark hmark]
      omega
    · have := item.instruction.size_pos
      rw [itemCount_item hitem]
      omega

end Runs

/-! ## Local variables -/

/-- No more than `n` local variables have a type, here or at a label. -/
structure Body.Narrow (n : Nat) (b : Body) : Prop where
  locals : b.locals.size ≤ n
  labels : ∀ (i : Nat) (l : Label), b.labels[i]? = some l → l.locals.size ≤ n

theorem Body.size_assigned (b : Body) (slot : UInt16) (t : VerificationType) :
    (b.assigned slot t).locals.size = max b.locals.size (slot.toNat + 1) := by
  simp only [Body.assigned, Array.size_setIfInBounds, Array.size_append, Array.size_replicate]
  omega

theorem Call.Effect.locals_le {n : Nat} {c : Call} {b b' : Body} (h : c.Effect b b') (hb : b.Narrow n)
    (hslot : ∀ slot, c.slot? = some slot → slot.toNat < n) : b'.locals.size ≤ n := by
  cases c with
  | newLabel => obtain rfl := h; exact hb.locals
  | branch condition label => obtain ⟨S, popped, l, -, -, -, -, rfl⟩ := h; exact hb.locals
  | jump label => obtain ⟨l, -, -, rfl⟩ := h; exact hb.locals
  | bind label =>
    obtain ⟨l, hl, -, ⟨-, -, rfl⟩ | ⟨-, rfl⟩⟩ := h
    · exact hb.locals
    · exact hb.labels label l hl
  | store slot kind =>
    obtain ⟨-, -, -, t, -, hlocals⟩ := h.advances rfl rfl
    rw [hlocals, Body.size_assigned]
    exact Nat.max_le.2 ⟨hb.locals, hslot slot rfl⟩
  | invokeSpecial m =>
    obtain ⟨-, -, -, f, hlocals⟩ := h.advances rfl rfl
    rw [hlocals, Array.size_map]
    exact hb.locals
  | _ =>
    obtain ⟨-, -, -, hlocals⟩ := h.advances rfl rfl
    exact Nat.le_trans (Nat.le_of_eq (congrArg Array.size hlocals)) hb.locals

theorem Call.Effect.narrow {n : Nat} {c : Call} {b b' : Body} (h : c.Effect b b') (hb : b.Narrow n)
    (hslot : ∀ slot, c.slot? = some slot → slot.toNat < n) : b'.Narrow n := by
  refine ⟨h.locals_le hb hslot, ?_⟩
  intro i l hl
  obtain ⟨-, heq⟩ | ⟨j, l', f, -, hl', heq, hbecomes⟩ | ⟨-, -, heq, -⟩ := h.labels
  · rw [heq] at hl
    obtain rfl | hl := getElem?_push_cases hl
    · exact hb.locals
    · exact hb.labels i l hl
  · rw [heq] at hl
    obtain ⟨-, k, hk, rfl⟩ | ⟨-, hl⟩ := getElem?_modify_cases hl
    · rw [hl'] at hk
      cases hk
      exact Nat.le_trans hbecomes.locals (hb.labels j l' hl')
    · exact hb.labels i l hl
  · rw [heq] at hl
    exact hb.labels i l hl

theorem Performs.narrow {n : Nat} {calls : List Call} {b b' : Body} (h : Performs calls b b') (hb : b.Narrow n)
    (hslot : ∀ c ∈ calls, ∀ slot, c.slot? = some slot → slot.toNat < n) : b'.Narrow n := by
  induction h with
  | nil b => exact hb
  | cons first _ ih => exact ih (first.narrow hb (hslot _ (.head _))) fun c hc => hslot c (.tail _ hc)

/-! ## Compiled programs -/

theorem itemCount_defaultCalls (vars : List Variable) : itemCount (vars.flatMap defaultCalls) = 2 * vars.length := by
  induction vars with
  | nil => rfl
  | cons v vars ih =>
    have hdefault : itemCount (defaultCalls v) = 2 := by
      rw [defaultCalls_eq]
      cases v.type <;> rfl
    rw [List.flatMap_cons, itemCount_append, hdefault, ih, List.length_cons]
    omega

namespace Program.Compiled

variable {p : Program} {className : String} {pool : ConstantPool} {thisClass arguments : UInt16} {frames : Bool}
  {body : Body} (h : p.Compiled className (.start pool thisClass [.object arguments] frames) body)
include h

theorem narrow : body.Narrow (p.table.current.length + 1) := by
  refine h.performs.narrow ⟨?_, ?_⟩ ?_
  · exact Nat.succ_le_succ (Nat.zero_le _)
  · intro i l hl
    simp [Body.start] at hl
  · intro c hc slot hslot
    obtain ⟨name, v, hv, rfl⟩ := p.usesSlots className c hc slot hslot
    obtain ⟨i, hi⟩ := List.getElem?_of_mem (p.flat_table.mem_of_lookup? hv).1
    obtain ⟨hlt, -⟩ := List.getElem?_eq_some_iff.1 hi
    rw [p.flat_table.slots i v hi]
    omega

/-- The bytes of the code pay for the variables, the frames and the operand stacks. -/
theorem size_ge {S : Types} (hS : body.Knows S) :
    2 * p.table.current.length + 3 * body.targets + S.size ≤ body.size := by
  obtain ⟨mid, hfirst, hopens, hrest, -⟩ := h.opened
  have hcount := itemCount_defaultCalls p.table.current
  have hsize := hfirst.itemCount_le
  have hlabels : mid.labels = #[] := hopens.labels
  have hmid : mid.Thrifty mid.size := by
    rintro T (rfl | ⟨i, l, hl, -⟩)
    · rw [Body.targets, hlabels, hopens.stack]
      exact Nat.le_refl _
    · simp [hlabels] at hl
  have := hrest.thrifty hmid S hS
  omega

end Program.Compiled

end KnightCode
