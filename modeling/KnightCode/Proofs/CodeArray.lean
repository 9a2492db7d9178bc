import KnightCode.Jvm.Instruction
import KnightCode.Proofs.Words

/-!
# Code arrays read back

An instruction is read back from its bytes, so a code array can be taken apart at the address of any of its
instructions, and as a whole.
-/

namespace KnightCode

namespace Instruction

@[simp] theorem readWordOperand_ofUInt16 (make : UInt16 → Instruction) (n : UInt16) (rest : Bytes) :
    readWordOperand make (Bytes.ofUInt16 n ++ rest) = some (make n, rest) := by
  simp [readWordOperand]

theorem read_iconst (n : Fin 7) (rest : Bytes) :
    read ((iconst n).bytes ++ rest) = some (iconst n, rest) := by
  match n with
  | 0 | 1 | 2 | 3 | 4 | 5 | 6 => rfl

theorem read_load (kind : ValueKind) (slot : Slot) (rest : Bytes) :
    read ((load kind slot).bytes ++ rest) = some (load kind slot, rest) := by
  cases slot with
  | short index =>
    cases kind <;> match index with
      | 0 | 1 | 2 | 3 => rfl
  | byte index => cases kind <;> rfl
  | wide index => cases kind <;> exact readWordOperand_ofUInt16 _ index rest

theorem read_store (kind : ValueKind) (slot : Slot) (rest : Bytes) :
    read ((store kind slot).bytes ++ rest) = some (store kind slot, rest) := by
  cases slot with
  | short index =>
    cases kind <;> match index with
      | 0 | 1 | 2 | 3 => rfl
  | byte index => cases kind <;> rfl
  | wide index => cases kind <;> exact readWordOperand_ofUInt16 _ index rest

theorem read_bytes (i : Instruction) (rest : Bytes) : read (i.bytes ++ rest) = some (i, rest) := by
  cases i with
  | iconst n => exact read_iconst n rest
  | bipush value =>
    have h : value.toUInt8.toInt8 = value := by simp
    rw [show read ((bipush value).bytes ++ rest) = some (bipush value.toUInt8.toInt8, rest) from rfl, h]
  | sipush value =>
    have h : value.toUInt16.toInt16 = value := by simp
    exact (readWordOperand_ofUInt16 (fun n => .sipush n.toInt16) value.toUInt16 rest).trans (by rw [h])
  | ldc index => rfl
  | load kind slot => exact read_load kind slot rest
  | store kind slot => exact read_store kind slot rest
  | arithmetic op => cases op <;> rfl
  | branch condition offset =>
    have h : offset.toUInt16.toInt16 = offset := by simp
    cases condition <;>
      exact (readWordOperand_ofUInt16 (fun n => .branch _ n.toInt16) offset.toUInt16 rest).trans (by rw [h])
  | goto offset =>
    have h : offset.toUInt16.toInt16 = offset := by simp
    exact (readWordOperand_ofUInt16 (fun n => .goto n.toInt16) offset.toUInt16 rest).trans (by rw [h])
  | dup => rfl
  | returnVoid => rfl
  | ldcWide index => exact readWordOperand_ofUInt16 .ldcWide index rest
  | getStatic index => exact readWordOperand_ofUInt16 .getStatic index rest
  | putStatic index => exact readWordOperand_ofUInt16 .putStatic index rest
  | invokeVirtual index => exact readWordOperand_ofUInt16 .invokeVirtual index rest
  | invokeSpecial index => exact readWordOperand_ofUInt16 .invokeSpecial index rest
  | invokeStatic index => exact readWordOperand_ofUInt16 .invokeStatic index rest
  | new index => exact readWordOperand_ofUInt16 .new index rest

end Instruction

/-! ## Addresses -/

def codeSize : List Instruction → Nat
  | [] => 0
  | i :: code => i.size + codeSize code

@[simp] theorem codeSize_nil : codeSize [] = 0 := rfl

@[simp] theorem codeSize_cons (i : Instruction) (code : List Instruction) :
    codeSize (i :: code) = i.size + codeSize code := rfl

@[simp] theorem codeSize_append (first second : List Instruction) :
    codeSize (first ++ second) = codeSize first + codeSize second := by
  induction first with
  | nil => rw [List.nil_append, codeSize_nil, Nat.zero_add]
  | cons i first ih => rw [List.cons_append, codeSize_cons, codeSize_cons, ih, Nat.add_assoc]

theorem codeSize_le (code : List Instruction) : codeSize code ≤ 4 * code.length := by
  induction code with
  | nil => exact Nat.le_refl _
  | cons i code ih =>
    have hsize : i.size ≤ 4 := by
      unfold Instruction.size
      split <;> omega
    rw [codeSize_cons, List.length_cons]
    omega

theorem length_assemble (code : List Instruction) : (assemble code).length = codeSize code := by
  induction code with
  | nil => rfl
  | cons i code ih =>
    rw [assemble, List.flatMap_cons, List.length_append, i.length_bytes, codeSize_cons, ← ih, assemble]

theorem drop_assemble (code : List Instruction) (k : Nat) :
    (assemble code).drop (codeSize (code.take k)) = assemble (code.drop k) := by
  have hsplit : assemble code = assemble (code.take k) ++ assemble (code.drop k) := by
    rw [assemble, assemble, assemble, ← List.flatMap_append, List.take_append_drop]
  rw [hsplit, ← length_assemble, List.drop_left]

theorem read_drop_assemble {code : List Instruction} {k : Nat} {i : Instruction} (h : code[k]? = some i) :
    Instruction.read ((assemble code).drop (codeSize (code.take k))) = some (i, assemble (code.drop (k + 1))) := by
  obtain ⟨hk, rfl⟩ := List.getElem?_eq_some_iff.1 h
  rw [drop_assemble, List.drop_eq_getElem_cons hk, assemble, List.flatMap_cons, Instruction.read_bytes, assemble]

theorem codeSize_take_succ {code : List Instruction} {k : Nat} {i : Instruction} (h : code[k]? = some i) :
    codeSize (code.take (k + 1)) = codeSize (code.take k) + i.size := by
  rw [List.take_add_one, h]
  simp

theorem addressesOnto_eq (code : List Instruction) (start : Nat) (acc : List Nat) :
    addressesOnto start acc code =
      acc.reverse ++ (List.range code.length).map fun k => start + codeSize (code.take k) := by
  induction code generalizing start acc with
  | nil => simp [addressesOnto]
  | cons i code ih =>
    rw [addressesOnto, ih, List.length_cons, List.range_succ_eq_map]
    simp [Nat.add_assoc]

theorem codeSize_take_lt {code : List Instruction} {j k : Nat} (hjk : j < k) (hk : k ≤ code.length) :
    codeSize (code.take j) < codeSize (code.take k) := by
  induction k with
  | zero => omega
  | succ k ih =>
    have hget : code[k]? = some code[k] := List.getElem?_eq_getElem (by omega)
    have hpos := code[k].size_pos
    rw [codeSize_take_succ hget]
    rcases Nat.lt_or_ge j k with hlt | hge
    · have := ih hlt (by omega)
      omega
    · have : j = k := by omega
      subst this
      omega

theorem codeSize_take_le (code : List Instruction) (k : Nat) : codeSize (code.take k) ≤ codeSize code := by
  have hsplit := codeSize_append (code.take k) (code.drop k)
  rw [List.take_append_drop] at hsplit
  omega

/-- The address of an instruction is the number of bytes before it. -/
theorem addresses_eq (code : List Instruction) :
    addresses code = (List.range code.length).map fun k => codeSize (code.take k) := by
  simp [addresses, addressesOnto_eq]

/-! ## Whole code arrays -/

theorem assemble_cons (i : Instruction) (code : List Instruction) : assemble (i :: code) = i.bytes ++ assemble code := by
  simp [assemble]

theorem disassembleOnto_append (code : List Instruction) (rest : Bytes) (address : Nat) (acc : List Instruction) :
    disassembleOnto address acc (assemble code ++ rest) =
      disassembleOnto (address + codeSize code) (code.reverse ++ acc) rest := by
  induction code generalizing address acc with
  | nil => simp [assemble]
  | cons i code ih =>
    have hread := i.read_bytes (assemble code ++ rest)
    have hne : i.bytes ≠ [] := List.ne_nil_of_length_pos (by rw [i.length_bytes]; exact i.size_pos)
    rw [assemble_cons, List.append_assoc, disassembleOnto, if_neg (by simp [hne])]
    -- The instruction at the front is read, so the reader does not stop here.
    split
    · next j tail h =>
      rw [hread] at h
      obtain ⟨rfl, rfl⟩ := Prod.mk.inj (Option.some.inj h)
      rw [ih]
      simp [Nat.add_assoc]
    · next h =>
      rw [hread] at h
      cases h

theorem disassemble_assemble (code : List Instruction) : disassemble (assemble code) = .ok code := by
  have happend := disassembleOnto_append code [] 0 []
  rw [List.append_nil] at happend
  rw [disassemble, happend]
  simp [disassembleOnto]

end KnightCode
