import KnightCode.Proofs.CodeArray
import Mathlib.Algebra.GroupWithZero.Nat

/-!
# Instructions and their bytes

Reading an instruction is the inverse of writing it, so a code array stands for one list of instructions at most. Where
it stands for none, disassembling stops after the longest list of instructions that the bytes begin with.
-/

namespace KnightCode

namespace Instruction

/-! ## One instruction -/

theorem opcode_eq {opcode : UInt8} {n : Nat} (h : opcode.toNat = n) : opcode = UInt8.ofNat n := by simp [← h]

section Operands

variable {input rest : Bytes} {i : Instruction} {opcode : UInt8}

theorem bytes_of_readByteOperand {make : UInt8 → Instruction} (h : readByteOperand make input = some (i, rest))
    (hmake : ∀ n, (make n).bytes = [opcode, n]) : opcode :: input = i.bytes ++ rest := by
  cases input with
  | nil => cases h
  | cons n input =>
    cases h
    simp [hmake]

theorem bytes_of_readWordOperand (front : Bytes) {make : UInt16 → Instruction}
    (h : readWordOperand make input = some (i, rest)) (hmake : ∀ n, (make n).bytes = front ++ Bytes.ofUInt16 n) :
    front ++ input = i.bytes ++ rest := by
  unfold readWordOperand at h
  obtain ⟨⟨n, tail⟩, hread, hmade⟩ := Option.map_eq_some_iff.1 h
  cases hmade
  rw [hmake, Bytes.readUInt16_eq_some_iff.1 hread, List.append_assoc]

theorem bytes_of_readWide (h : readWide input = some (i, rest)) : wideOpcode :: input = i.bytes ++ rest := by
  cases input with
  | nil => cases h
  | cons opcode input =>
    simp only [readWide] at h
    split at h
    all_goals first
      | (next hopcode =>
          rw [opcode_eq hopcode]
          exact bytes_of_readWordOperand [wideOpcode, _] h fun _ => rfl)
      | cases h

end Operands

theorem read_eq_some_iff {input rest : Bytes} {i : Instruction} :
    read input = some (i, rest) ↔ input = i.bytes ++ rest := by
  constructor
  · intro h
    cases input with
    | nil => cases h
    | cons opcode input =>
      simp only [read] at h
      split at h
      -- the opcode alone says what follows it: nothing, a byte, two bytes, or what `wide` goes before
      all_goals first
        | (next hopcode =>
            rw [opcode_eq hopcode]
            first
              | (obtain ⟨rfl, rfl⟩ := Prod.mk.inj (Option.some.inj h); rfl)
              | exact bytes_of_readByteOperand h fun _ => by simp [bytes, slotBytes, loadOpcodes, storeOpcodes]
              | exact bytes_of_readWordOperand [_] h fun _ => by simp [bytes, branchOpcode]
              | exact bytes_of_readWide h)
        | cases h
  · rintro rfl
    exact read_bytes i rest

theorem bytes_append_inj {i j : Instruction} {front rest : Bytes} :
    i.bytes ++ front = j.bytes ++ rest ↔ i = j ∧ front = rest := by
  rw [← read_eq_some_iff, read_bytes, Option.some.injEq, Prod.mk.injEq]

end Instruction

/-! ## Code arrays -/

theorem codeSize_eq_sum (code : List Instruction) : codeSize code = (code.map Instruction.size).sum := by
  induction code with
  | nil => rfl
  | cons i code ih => simp [ih]

/-- Bytes are instructions and then bytes at which no instruction can be read. -/
theorem exists_code (bytes : Bytes) : ∃ code rest, bytes = assemble code ++ rest ∧ Instruction.read rest = none := by
  induction hn : bytes.length using Nat.strongRecOn generalizing bytes with
  | ind n ih =>
    cases hread : Instruction.read bytes with
    | none => exact ⟨[], bytes, rfl, hread⟩
    | some found =>
      obtain ⟨i, tail⟩ := found
      have hlength := Instruction.length_of_read hread
      have hpos := i.size_pos
      obtain ⟨code, rest, htail, hstop⟩ := ih tail.length (by omega) tail rfl
      refine ⟨i :: code, rest, ?_, hstop⟩
      rw [Instruction.read_eq_some_iff.1 hread, htail, assemble_cons, List.append_assoc]

theorem disassemble_of_read_eq_none (code : List Instruction) {rest : Bytes} (h : Instruction.read rest = none) :
    disassemble (assemble code ++ rest) = if rest = [] then .ok code else .error (assemble code).length := by
  rw [disassemble, disassembleOnto_append, disassembleOnto, length_assemble]
  split
  · next hempty => simp [List.isEmpty_iff.1 hempty]
  · next hne =>
    rw [if_neg (by simpa using hne)]
    split
    · next i tail hread =>
      rw [h] at hread
      cases hread
    · simp

/-- The bytes begin with the instructions, and with no others than the first few of these. -/
def IsLongest (bytes : Bytes) (code : List Instruction) : Prop :=
  assemble code <+: bytes ∧ ∀ other, assemble other <+: bytes → other <+: code

theorem IsLongest.unique {bytes : Bytes} {code other : List Instruction} (h : IsLongest bytes code)
    (hother : IsLongest bytes other) : code = other := by
  have hle := hother.2 code h.1
  exact hle.eq_of_length_le (h.2 other hother.1).length_le

theorem isLongest_of_read_eq_none (code : List Instruction) {rest : Bytes} (h : Instruction.read rest = none) :
    IsLongest (assemble code ++ rest) code := by
  refine ⟨List.prefix_append _ _, ?_⟩
  intro other
  -- The first instruction of both lists is the same, since bytes begin with one instruction at most.
  induction code generalizing other with
  | nil =>
    cases other with
    | nil => exact fun _ => List.prefix_rfl
    | cons j other =>
      rintro ⟨tail, htail⟩
      have hrest : rest = j.bytes ++ (assemble other ++ tail) := by
        rw [← List.append_assoc, ← assemble_cons, htail]
        rfl
      rw [Instruction.read_eq_some_iff.2 hrest] at h
      cases h
  | cons i code ih =>
    cases other with
    | nil => exact fun _ => List.nil_prefix
    | cons j other =>
      rintro ⟨tail, htail⟩
      rw [assemble_cons, assemble_cons, List.append_assoc, List.append_assoc, Instruction.bytes_append_inj] at htail
      obtain ⟨rfl, htail⟩ := htail
      exact List.prefix_cons_inj j |>.2 (ih other ⟨tail, htail⟩)

/-- A code array is as long as its instructions together; it is disassembled into exactly the instructions that it was
assembled from; and disassembling other bytes stops where the longest list of instructions in front ends. -/
theorem disassemble_inverts_assemble (code : List Instruction) (bytes : Bytes) (address : Nat) :
    (assemble code).length = (code.map Instruction.size).sum ∧
      (disassemble bytes = .ok code ↔ assemble code = bytes) ∧
      (disassemble bytes = .error address ↔
        ∃ longest, IsLongest bytes longest ∧ assemble longest ≠ bytes ∧ address = (assemble longest).length) := by
  refine ⟨(length_assemble code).trans (codeSize_eq_sum code), ?_, ?_⟩
  · constructor
    · intro h
      obtain ⟨longest, rest, rfl, hstop⟩ := exists_code bytes
      rw [disassemble_of_read_eq_none longest hstop] at h
      split at h
      · next hrest =>
        cases h
        rw [hrest, List.append_nil]
      · cases h
    · rintro rfl
      exact disassemble_assemble code
  · obtain ⟨longest, rest, rfl, hstop⟩ := exists_code bytes
    have hlongest := isLongest_of_read_eq_none longest hstop
    have hne : assemble longest ≠ assemble longest ++ rest ↔ rest ≠ [] := by simp
    rw [disassemble_of_read_eq_none longest hstop]
    constructor
    · intro h
      split at h
      · cases h
      · next hrest =>
        cases h
        exact ⟨longest, hlongest, hne.2 hrest, rfl⟩
    · rintro ⟨other, hother, hrest, rfl⟩
      obtain rfl := hlongest.unique hother
      rw [if_neg (hne.1 hrest)]

end KnightCode
