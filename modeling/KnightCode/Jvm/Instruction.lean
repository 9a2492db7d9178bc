import KnightCode.Bytes
import KnightCode.Operator

/-!
# Instructions

The instructions that are used, their bytes, and code arrays. Branch offsets count from the branch itself.
`length_bytes` and `length_of_read` tie `size` to the bytes written and read.
-/

namespace KnightCode

inductive ValueKind
  | int
  | reference
  deriving DecidableEq, Repr

/-- How an instruction names a local variable: within the opcode, in one byte, or in two bytes. -/
inductive Slot
  | short (index : Fin 4)
  | byte (index : UInt8)
  | wide (index : UInt16)
  deriving DecidableEq, Repr

def Slot.ofIndex (index : UInt16) : Slot :=
  if h : index.toNat < 4 then .short ⟨index.toNat, h⟩
  else if index ≤ 255 then .byte index.toUInt8
  else .wide index

def Slot.index : Slot → UInt16
  | .short index => index.val.toUInt16
  | .byte index => index.toUInt16
  | .wide index => index

inductive Instruction
  /-- Pushes a number from minus one to five, which is `n - 1`. -/
  | iconst (n : Fin 7)
  | bipush (value : Int8)
  | sipush (value : Int16)
  | ldc (index : UInt8)
  | ldcWide (index : UInt16)
  | load (kind : ValueKind) (slot : Slot)
  | store (kind : ValueKind) (slot : Slot)
  | arithmetic (op : Arithmetic)
  | dup
  | branch (condition : Condition) (offset : Int16)
  | goto (offset : Int16)
  | getStatic (index : UInt16)
  | putStatic (index : UInt16)
  | invokeVirtual (index : UInt16)
  | invokeSpecial (index : UInt16)
  | invokeStatic (index : UInt16)
  | new (index : UInt16)
  | returnVoid
  deriving DecidableEq, Repr

namespace Instruction

def size : Instruction → Nat
  | .iconst _ | .arithmetic _ | .dup | .returnVoid => 1
  | .load _ (.short _) | .store _ (.short _) => 1
  | .bipush _ | .ldc _ | .load _ (.byte _) | .store _ (.byte _) => 2
  | .load _ (.wide _) | .store _ (.wide _) => 4
  | _ => 3

def withOffset? (offset : Int16) : Instruction → Option Instruction
  | .goto _ => some (.goto offset)
  | .branch condition _ => some (.branch condition offset)
  | _ => none

/-! ## Bytes -/

/-- The opcodes that name a local variable: the first of the four short ones, and the one with an operand. -/
structure SlotOpcodes where
  short : UInt8
  long : UInt8

def loadOpcodes : ValueKind → SlotOpcodes
  | .int => ⟨0x1A, 0x15⟩
  | .reference => ⟨0x2A, 0x19⟩

def storeOpcodes : ValueKind → SlotOpcodes
  | .int => ⟨0x3B, 0x36⟩
  | .reference => ⟨0x4B, 0x3A⟩

/-- The opcode before a long opcode whose operand has two bytes. -/
def wideOpcode : UInt8 := 0xC4

def slotBytes (opcodes : SlotOpcodes) : Slot → Bytes
  | .short index => [opcodes.short + index.val.toUInt8]
  | .byte index => [opcodes.long, index]
  | .wide index => wideOpcode :: opcodes.long :: Bytes.ofUInt16 index

def arithmeticOpcode : Arithmetic → UInt8
  | .add => 0x60
  | .sub => 0x64
  | .mul => 0x68
  | .div => 0x6C

def branchOpcode : Condition → UInt8
  | .eq => 0x9F
  | .ne => 0xA0
  | .lt => 0xA1
  | .ge => 0xA2
  | .gt => 0xA3
  | .le => 0xA4

def bytes : Instruction → Bytes
  | .iconst n => [0x02 + n.val.toUInt8]
  | .bipush value => [0x10, value.toUInt8]
  | .sipush value => 0x11 :: Bytes.ofUInt16 value.toUInt16
  | .ldc index => [0x12, index]
  | .ldcWide index => 0x13 :: Bytes.ofUInt16 index
  | .load kind slot => slotBytes (loadOpcodes kind) slot
  | .store kind slot => slotBytes (storeOpcodes kind) slot
  | .arithmetic op => [arithmeticOpcode op]
  | .dup => [0x59]
  | .branch condition offset => branchOpcode condition :: Bytes.ofUInt16 offset.toUInt16
  | .goto offset => 0xA7 :: Bytes.ofUInt16 offset.toUInt16
  | .returnVoid => [0xB1]
  | .getStatic index => 0xB2 :: Bytes.ofUInt16 index
  | .putStatic index => 0xB3 :: Bytes.ofUInt16 index
  | .invokeVirtual index => 0xB6 :: Bytes.ofUInt16 index
  | .invokeSpecial index => 0xB7 :: Bytes.ofUInt16 index
  | .invokeStatic index => 0xB8 :: Bytes.ofUInt16 index
  | .new index => 0xBB :: Bytes.ofUInt16 index

def readByteOperand (make : UInt8 → Instruction) (bytes : Bytes) : Option (Instruction × Bytes) :=
  (Bytes.readUInt8 bytes).map fun (n, rest) => (make n, rest)

def readWordOperand (make : UInt16 → Instruction) (bytes : Bytes) : Option (Instruction × Bytes) :=
  (Bytes.readUInt16 bytes).map fun (n, rest) => (make n, rest)

def readWide : Bytes → Option (Instruction × Bytes)
  | [] => none
  | opcode :: rest =>
    match opcode.toNat with
    | 0x15 => readWordOperand (.load .int ∘ .wide) rest
    | 0x19 => readWordOperand (.load .reference ∘ .wide) rest
    | 0x36 => readWordOperand (.store .int ∘ .wide) rest
    | 0x3A => readWordOperand (.store .reference ∘ .wide) rest
    | _ => none

def read : Bytes → Option (Instruction × Bytes)
  | [] => none
  | opcode :: rest =>
    match opcode.toNat with
    | 0x02 => some (.iconst 0, rest)
    | 0x03 => some (.iconst 1, rest)
    | 0x04 => some (.iconst 2, rest)
    | 0x05 => some (.iconst 3, rest)
    | 0x06 => some (.iconst 4, rest)
    | 0x07 => some (.iconst 5, rest)
    | 0x08 => some (.iconst 6, rest)
    | 0x10 => readByteOperand (fun n => .bipush n.toInt8) rest
    | 0x11 => readWordOperand (fun n => .sipush n.toInt16) rest
    | 0x12 => readByteOperand .ldc rest
    | 0x13 => readWordOperand .ldcWide rest
    | 0x15 => readByteOperand (.load .int ∘ .byte) rest
    | 0x19 => readByteOperand (.load .reference ∘ .byte) rest
    | 0x1A => some (.load .int (.short 0), rest)
    | 0x1B => some (.load .int (.short 1), rest)
    | 0x1C => some (.load .int (.short 2), rest)
    | 0x1D => some (.load .int (.short 3), rest)
    | 0x2A => some (.load .reference (.short 0), rest)
    | 0x2B => some (.load .reference (.short 1), rest)
    | 0x2C => some (.load .reference (.short 2), rest)
    | 0x2D => some (.load .reference (.short 3), rest)
    | 0x36 => readByteOperand (.store .int ∘ .byte) rest
    | 0x3A => readByteOperand (.store .reference ∘ .byte) rest
    | 0x3B => some (.store .int (.short 0), rest)
    | 0x3C => some (.store .int (.short 1), rest)
    | 0x3D => some (.store .int (.short 2), rest)
    | 0x3E => some (.store .int (.short 3), rest)
    | 0x4B => some (.store .reference (.short 0), rest)
    | 0x4C => some (.store .reference (.short 1), rest)
    | 0x4D => some (.store .reference (.short 2), rest)
    | 0x4E => some (.store .reference (.short 3), rest)
    | 0x59 => some (.dup, rest)
    | 0x60 => some (.arithmetic .add, rest)
    | 0x64 => some (.arithmetic .sub, rest)
    | 0x68 => some (.arithmetic .mul, rest)
    | 0x6C => some (.arithmetic .div, rest)
    | 0x9F => readWordOperand (fun n => .branch .eq n.toInt16) rest
    | 0xA0 => readWordOperand (fun n => .branch .ne n.toInt16) rest
    | 0xA1 => readWordOperand (fun n => .branch .lt n.toInt16) rest
    | 0xA2 => readWordOperand (fun n => .branch .ge n.toInt16) rest
    | 0xA3 => readWordOperand (fun n => .branch .gt n.toInt16) rest
    | 0xA4 => readWordOperand (fun n => .branch .le n.toInt16) rest
    | 0xA7 => readWordOperand (fun n => .goto n.toInt16) rest
    | 0xB1 => some (.returnVoid, rest)
    | 0xB2 => readWordOperand .getStatic rest
    | 0xB3 => readWordOperand .putStatic rest
    | 0xB6 => readWordOperand .invokeVirtual rest
    | 0xB7 => readWordOperand .invokeSpecial rest
    | 0xB8 => readWordOperand .invokeStatic rest
    | 0xBB => readWordOperand .new rest
    | 0xC4 => readWide rest
    | _ => none

theorem size_pos (i : Instruction) : 0 < i.size := by
  unfold size; split <;> omega

theorem length_bytes (i : Instruction) : i.bytes.length = i.size := by
  cases i with
  | load kind slot => cases slot <;> rfl
  | store kind slot => cases slot <;> rfl
  | _ => rfl

theorem length_of_readByteOperand {make : UInt8 → Instruction} {bytes rest : Bytes} {i : Instruction}
    (h : readByteOperand make bytes = some (i, rest)) (two : ∀ n, (make n).size = 2) :
    rest.length + i.size = bytes.length + 1 := by
  cases bytes with
  | nil => cases h
  | cons n bytes =>
    simp only [readByteOperand, Bytes.readUInt8, Option.map_some, Option.some.injEq, Prod.mk.injEq] at h
    obtain ⟨rfl, rfl⟩ := h
    simp [two]

theorem length_of_readWordOperand (k : Nat) {make : UInt16 → Instruction} {bytes rest : Bytes} {i : Instruction}
    (h : readWordOperand make bytes = some (i, rest)) (size : ∀ n, (make n).size = k) :
    rest.length + 2 = bytes.length ∧ i.size = k := by
  match bytes, h with
  | a :: b :: bytes, h =>
    simp only [readWordOperand, Bytes.readUInt16, Option.map_some, Option.some.injEq, Prod.mk.injEq] at h
    obtain ⟨rfl, rfl⟩ := h
    simp [size]

theorem length_of_readWide {bytes rest : Bytes} {i : Instruction} (h : readWide bytes = some (i, rest)) :
    rest.length + i.size = bytes.length + 1 := by
  cases bytes with
  | nil => cases h
  | cons opcode bytes =>
    simp only [readWide] at h
    split at h
    all_goals first
      | (have taken := length_of_readWordOperand 4 h (fun _ => rfl); simp only [List.length_cons]; omega)
      | cases h

theorem length_of_read {bytes rest : Bytes} {i : Instruction} (h : read bytes = some (i, rest)) :
    rest.length + i.size = bytes.length := by
  cases bytes with
  | nil => cases h
  | cons opcode bytes =>
    simp only [read] at h
    split at h
    all_goals first
      | (have taken := length_of_readWordOperand 3 h (fun _ => rfl); simp only [List.length_cons]; omega)
      | (have taken := length_of_readByteOperand h (fun _ => rfl); simp only [List.length_cons]; omega)
      | (have taken := length_of_readWide h; simp only [List.length_cons]; omega)
      | (obtain ⟨rfl, rfl⟩ := Prod.mk.inj (Option.some.inj h); rfl)
      | cases h

end Instruction

/-! ## Code arrays -/

def assemble (code : List Instruction) : Bytes := code.flatMap Instruction.bytes

/-- Puts the addresses of the instructions, the first of which is at `start`, onto the reversed list `acc`. -/
def addressesOnto (start : Nat) (acc : List Nat) : List Instruction → List Nat
  | [] => acc.reverse
  | i :: code => addressesOnto (start + i.size) (start :: acc) code

def addresses (code : List Instruction) : List Nat := addressesOnto 0 [] code

/-- Reads instructions onto the reversed list `acc`; on failure gives the address of the instruction that cannot be
read. -/
def disassembleOnto (address : Nat) (acc : List Instruction) (bytes : Bytes) : Except Nat (List Instruction) :=
  if bytes.isEmpty then .ok acc.reverse
  else
    match _h : Instruction.read bytes with
    | some (i, rest) => disassembleOnto (address + i.size) (i :: acc) rest
    | none => .error address
termination_by bytes.length
decreasing_by
  have := Instruction.length_of_read _h
  have := Instruction.size_pos i
  omega

def disassemble (bytes : Bytes) : Except Nat (List Instruction) := disassembleOnto 0 [] bytes

end KnightCode
