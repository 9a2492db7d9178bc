import KnightCode.Proofs.Runs

/-!
# Finished bodies

Finishing a body turns its items into instructions one by one. An item that is no branch stays what it is; a branch gets
the distance, in bytes, to the place its label is bound to. It fails only if a label is missing, the code is too long or
a branch is too far.
-/

namespace KnightCode

/-! ## Work that can fail, on every element of a list -/

section Elements

variable {ε α β : Type} {f : α → Except ε β} {l : List α} {r : List β} {e : ε}

theorem mapM_eq_ok (h : l.mapM f = .ok r) :
    r.length = l.length ∧ ∀ (k : Nat) (a : α), l[k]? = some a → ∃ b, r[k]? = some b ∧ f a = .ok b := by
  induction l generalizing r with
  | nil =>
    cases h
    simp
  | cons a l ih =>
    rw [List.mapM_cons] at h
    obtain ⟨b, hb, h⟩ := except_bind_eq_ok.1 h
    obtain ⟨bs, hbs, h⟩ := except_bind_eq_ok.1 h
    cases h
    obtain ⟨hlength, hget⟩ := ih hbs
    refine ⟨by simp [hlength], ?_⟩
    intro k c hc
    cases k with
    | zero =>
      cases hc
      exact ⟨b, rfl, hb⟩
    | succ k => exact hget k c hc

theorem mapM_eq_error (h : l.mapM f = .error e) : ∃ a ∈ l, f a = .error e := by
  induction l with
  | nil => cases h
  | cons a l ih =>
    rw [List.mapM_cons] at h
    cases ha : f a with
    | error e' =>
      rw [ha] at h
      cases h
      exact ⟨a, .head _, ha⟩
    | ok b =>
      rw [ha] at h
      cases hl : l.mapM f with
      | error e' =>
        have h : Except.bind (l.mapM f) (fun bs => .ok (b :: bs)) = .error e := h
        rw [hl] at h
        cases h
        obtain ⟨a', hmem, ha'⟩ := ih hl
        exact ⟨a', .tail _ hmem, ha'⟩
      | ok bs =>
        have h : Except.bind (l.mapM f) (fun bs => .ok (b :: bs)) = .error e := h
        rw [hl] at h
        cases h

end Elements

def Fault.IsSize : Fault → Prop
  | .code (.bodyTooLarge size) => 65535 < size
  | .code (.branchTooFar offset) => offset < -32768 ∨ 32767 < offset
  | _ => False

namespace Body

theorem mem_finalItems {b : Body} {item : Item} (h : item ∈ b.finalItems) :
    item ∈ b.items.toList ∨ item = .plain .returnVoid := by
  unfold finalItems at h
  split at h
  · simpa using h
  · exact .inl h

theorem mem_items_of_label {b : Body} {item : Item} {label : Nat} (h : item ∈ b.finalItems)
    (hlabel : item.label? = some label) : item ∈ b.items.toList := by
  rcases mem_finalItems h with hmem | rfl
  · exact hmem
  · cases hlabel

theorem length_finalItems (b : Body) : b.finalItems.length = b.items.size + if b.reachable then 1 else 0 := by
  unfold finalItems
  split <;> simp

/-! ## Addresses -/

def address (b : Body) (k : Nat) : Nat := codeSize ((b.finalItems.map Item.instruction).take k)

theorem address_inj {b : Body} {j k : Nat} (hj : j ≤ b.finalItems.length) (hk : k ≤ b.finalItems.length)
    (h : b.address j = b.address k) : j = k := by
  have hlength : (b.finalItems.map Item.instruction).length = b.finalItems.length := List.length_map _
  rcases Nat.lt_trichotomy j k with hlt | heq | hlt
  · have := codeSize_take_lt hlt (hlength ▸ hk)
    unfold address at h
    omega
  · exact heq
  · have := codeSize_take_lt hlt (hlength ▸ hj)
    unfold address at h
    omega

def finalSize (b : Body) : Nat := if b.reachable then b.size + 1 else b.size

def SizeCounted (b : Body) : Prop := b.size = codeSize (b.items.toList.map Item.instruction)

theorem SizeCounted.finalSize {b : Body} (h : b.SizeCounted) :
    b.finalSize = codeSize (b.finalItems.map Item.instruction) := by
  unfold Body.finalSize finalItems
  split
  · rw [h, List.map_append, codeSize_append]
    rfl
  · exact h

def addressOf (b : Body) (position : Nat) : Nat :=
  (addresses (b.finalItems.map Item.instruction)).toArray[position]?.getD b.finalSize

theorem addressOf_eq {b : Body} (h : b.SizeCounted) (k : Nat) : b.addressOf k = b.address k := by
  unfold addressOf address
  rw [addresses_eq, List.getElem?_toArray, List.getElem?_map]
  rcases Nat.lt_or_ge k (b.finalItems.map Item.instruction).length with hlt | hge
  · rw [List.getElem?_range hlt]
    rfl
  · rw [List.getElem?_eq_none (by simpa using hge), List.take_of_length_le hge, ← h.finalSize]
    rfl

theorem addresses_get? (b : Body) {k : Nat} {item : Item} (hk : b.finalItems[k]? = some item) :
    (b.finalItems.zip (addresses (b.finalItems.map Item.instruction)))[k]? = some (item, b.address k) := by
  obtain ⟨hlt, -⟩ := List.getElem?_eq_some_iff.1 hk
  have hplace : (addresses (b.finalItems.map Item.instruction))[k]? = some (b.address k) := by
    rw [addresses_eq, List.getElem?_map, List.getElem?_range (by simpa using hlt)]
    rfl
  rw [List.getElem?_zip_eq_some]
  exact ⟨hk, hplace⟩

/-! ## Finishing -/

theorem finish_eq (b : Body) :
    b.finish =
      match b.unresolved? with
      | some label => .error (.unresolvedLabel label)
      | none =>
        if b.finalSize > 65535 then .error (.code (.bodyTooLarge b.finalSize))
        else
          match (b.finalItems.zip (addresses (b.finalItems.map Item.instruction))).mapM
              (fun (item, address) => b.resolve b.addressOf item address) with
          | .error fault => .error fault
          | .ok instructions =>
            .ok ⟨instructions, b.maxStack, b.maxLocals,
              if b.wantsFrames then Frame.table? b.entryLocals.toList (b.targetFrames b.addressOf) else none⟩ := by
  have hfold : (if b.reachable = true then b.size + 1 else b.size) = b.finalSize := rfl
  have haddress : (fun position =>
      (addresses (b.finalItems.map Item.instruction)).toArray[position]?.getD b.finalSize) = b.addressOf := rfl
  unfold finish
  cases hu : b.unresolved? with
  | some label => rfl
  | none =>
    simp only [hfold, haddress]
    by_cases hsize : b.finalSize > 65535
    · rw [if_pos hsize, if_pos hsize]
      rfl
    · rw [if_neg hsize, if_neg hsize]
      cases (b.finalItems.zip (addresses (b.finalItems.map Item.instruction))).mapM
        (fun (item, address) => b.resolve b.addressOf item address) <;> rfl

/-- `finish` has four outcomes: a label is missing, the code is too long, an item cannot be resolved, or all can. -/
inductive Ending (b : Body) : Except Fault MethodCode → Prop
  | unresolved {label : Nat} (hlabel : b.unresolved? = some label) : Ending b (.error (.unresolvedLabel label))
  | tooLarge (hbound : b.unresolved? = none) (hlarge : 65535 < b.finalSize) :
      Ending b (.error (.code (.bodyTooLarge b.finalSize)))
  | refused {k : Nat} {item : Item} {fault : Fault} (hbound : b.unresolved? = none) (hsize : b.finalSize ≤ 65535)
      (hk : b.finalItems[k]? = some item) (hfault : b.resolve b.addressOf item (b.address k) = .error fault) :
      Ending b (.error fault)
  | finished {instructions : List Instruction} (hbound : b.unresolved? = none) (hsize : b.finalSize ≤ 65535)
      (hlength : instructions.length = b.finalItems.length)
      (hitems : ∀ (k : Nat) (item : Item), b.finalItems[k]? = some item →
        ∃ i, instructions[k]? = some i ∧ b.resolve b.addressOf item (b.address k) = .ok i) :
      Ending b (.ok ⟨instructions, b.maxStack, b.maxLocals,
        if b.wantsFrames then Frame.table? b.entryLocals.toList (b.targetFrames b.addressOf) else none⟩)

theorem finish_ending (b : Body) : b.Ending b.finish := by
  rw [finish_eq]
  cases hu : b.unresolved? with
  | some label => exact .unresolved hu
  | none =>
    simp only
    split
    · next hlarge => exact .tooLarge hu hlarge
    · next hsize =>
      have hsize := Nat.le_of_not_lt hsize
      split
      · next fault hm =>
        obtain ⟨⟨item, address⟩, hmem, hfault⟩ := mapM_eq_error hm
        obtain ⟨k, hk⟩ := List.mem_iff_getElem?.1 hmem
        have hitem := (List.getElem?_zip_eq_some.1 hk).1
        rw [b.addresses_get? hitem] at hk
        cases hk
        exact .refused hu hsize hitem hfault
      · next instructions hm =>
        obtain ⟨hlength, hget⟩ := mapM_eq_ok hm
        refine .finished hu hsize ?_ fun k item hk => hget k _ (b.addresses_get? hk)
        rw [hlength, List.length_zip, addresses_eq]
        simp

theorem unresolved?_of_finish {b : Body} {code : MethodCode} (h : b.finish = .ok code) : b.unresolved? = none := by
  have hending := b.finish_ending
  rw [h] at hending
  cases hending with
  | finished hbound => exact hbound

/-- What an item becomes at an address. -/
inductive Becomes (b : Body) (address : Nat) : Item → Instruction → Prop
  | plain (i : Instruction) : Becomes b address (.plain i) i
  | branch (condition : Condition) {label p : Nat} {offset : Int16} (hp : b.position? label = some p)
      (hoffset : offset.toInt = b.address p - address) :
      Becomes b address (.branch condition label) (.branch condition offset)
  | jump {label p : Nat} {offset : Int16} (hp : b.position? label = some p)
      (hoffset : offset.toInt = b.address p - address) : Becomes b address (.jump label) (.goto offset)

theorem Becomes.size_eq {b : Body} {address : Nat} {item : Item} {i : Instruction} (h : b.Becomes address item i) :
    i.size = item.instruction.size := by
  cases h <;> rfl

theorem resolve_eq_ok {b : Body} (hsize : b.SizeCounted) {item : Item} {address : Nat} {i : Instruction}
    (h : b.resolve b.addressOf item address = .ok i) : b.Becomes address item i := by
  have hbranch : ∀ label, item.label? = some label → ∃ p offset, b.position? label = some p ∧
      Int16.toInt offset = b.address p - address ∧ i = item.withOffset offset := by
    intro label hlabel
    simp only [resolve, hlabel] at h
    cases hp : b.labels[label]?.bind (·.position) with
    | none => rw [hp] at h; cases h
    | some p =>
      rw [hp] at h
      simp only at h
      split at h
      · next hrange =>
        cases h
        rw [addressOf_eq hsize] at hrange ⊢
        exact ⟨p, _, hp, Int16.toInt_ofInt_of_le (by omega) (by omega), rfl⟩
      · cases h
  cases item with
  | plain j =>
    cases h
    exact .plain j
  | branch condition label =>
    obtain ⟨p, offset, hp, hoffset, rfl⟩ := hbranch label rfl
    exact .branch condition hp hoffset
  | jump label =>
    obtain ⟨p, offset, hp, hoffset, rfl⟩ := hbranch label rfl
    exact .jump hp hoffset

/-- A finished body: its items have become instructions. -/
structure Finished (b : Body) (code : MethodCode) : Prop where
  length : code.instructions.length = b.finalItems.length
  becomes : ∀ (k : Nat) (item : Item), b.finalItems[k]? = some item →
    ∃ i, code.instructions[k]? = some i ∧ b.Becomes (b.address k) item i
  size_le : b.finalSize ≤ 65535
  maxStack : code.maxStack = b.maxStack
  maxLocals : code.maxLocals = b.maxLocals
  frames : code.frames =
    if b.wantsFrames then Frame.table? b.entryLocals.toList (b.targetFrames b.address) else none

theorem finish_eq_ok {b : Body} (hsize : b.SizeCounted) {code : MethodCode} (h : b.finish = .ok code) :
    b.Finished code := by
  have haddress : b.addressOf = b.address := funext (addressOf_eq hsize)
  have hending := b.finish_ending
  rw [h] at hending
  cases hending with
  | finished _ hle hlength hitems =>
    refine ⟨hlength, ?_, hle, rfl, rfl, by rw [haddress]⟩
    intro k item hk
    obtain ⟨i, hi, hresolve⟩ := hitems k item hk
    exact ⟨i, hi, resolve_eq_ok hsize hresolve⟩

namespace Finished

variable {b : Body} {code : MethodCode} (h : b.Finished code)
include h

/-- Instructions keep their sizes, and so their addresses. -/
theorem codeSize_take (k : Nat) : codeSize (code.instructions.take k) = b.address k := by
  unfold address
  induction k with
  | zero => rfl
  | succ k ih =>
    rcases Nat.lt_or_ge k b.finalItems.length with hlt | hge
    · have hk := List.getElem?_eq_getElem hlt
      obtain ⟨i, hi, hbecomes⟩ := h.becomes k _ hk
      have hitem : (b.finalItems.map Item.instruction)[k]? = some b.finalItems[k].instruction := by
        rw [List.getElem?_map, hk]
        rfl
      rw [codeSize_take_succ hi, codeSize_take_succ hitem, ih, hbecomes.size_eq]
    · -- Behind the end nothing is added on either side.
      rw [List.take_of_length_le (by rw [h.length]; omega), List.take_of_length_le (by simp; omega)]
      rw [List.take_of_length_le (by rw [h.length]; omega), List.take_of_length_le (by simp; omega)] at ih
      exact ih

theorem codeSize_eq (hsize : b.SizeCounted) : codeSize code.instructions = b.finalSize := by
  have := h.codeSize_take b.finalItems.length
  rw [← h.length, List.take_length] at this
  rw [this, hsize.finalSize, address, List.take_of_length_le (by simp [h.length])]

end Finished

theorem resolve_eq_error {b : Body} {addressOf : Nat → Nat} {item : Item} {address : Nat} {fault : Fault}
    (hbound : ∀ label, item.label? = some label → (b.position? label).isSome)
    (h : b.resolve addressOf item address = .error fault) : fault.IsSize := by
  unfold resolve at h
  cases hlabel : item.label? with
  | none => rw [hlabel] at h; cases h
  | some label =>
    obtain ⟨p, hp⟩ := Option.isSome_iff_exists.1 (hbound label hlabel)
    have hp : b.labels[label]?.bind (·.position) = some p := hp
    rw [hlabel] at h
    simp only [hp] at h
    split at h
    · cases h
    · next hrange =>
      cases h
      simp only [Fault.IsSize]
      omega

theorem finish_eq_error {b : Body} {fault : Fault} (hlabels : ∀ i, i < b.labels.size → (b.position? i).isSome)
    (hitems : ∀ item ∈ b.items.toList, ∀ label, item.label? = some label → (b.position? label).isSome)
    (h : b.finish = .error fault) : fault.IsSize := by
  have hending := b.finish_ending
  rw [h] at hending
  cases hending with
  | @unresolved label hlabel =>
    obtain ⟨hlt, hunbound, -⟩ := Array.findIdx?_eq_some_iff_getElem.1 hlabel
    have hbound := hlabels label hlt
    simp [position?, hlt] at hbound
    simp at hunbound
    simp [hunbound.2] at hbound
  | tooLarge _ hlarge => exact hlarge
  | @refused k item _ _ _ hk hfault =>
    refine resolve_eq_error ?_ hfault
    intro label hlabel
    exact hitems item (mem_items_of_label (List.mem_of_getElem? hk) hlabel) label hlabel

end Body

end KnightCode
