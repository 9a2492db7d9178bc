import KnightCode.Bytes

/-!
# Constants

The entries of a constant pool. Indices count from one; a text is held as its modified UTF-8 bytes.
-/

namespace KnightCode

inductive Constant
  | utf8 (bytes : Bytes)
  | integer (value : Int32)
  | classRef (name : UInt16)
  | string (text : UInt16)
  | fieldRef (owner member : UInt16)
  | methodRef (owner member : UInt16)
  | nameAndType (name descriptor : UInt16)
  deriving DecidableEq, Repr, Inhabited

namespace Constant

/-- A tag, then the contents. The length of a text is cut to two bytes. -/
def bytes : Constant → Bytes
  | .utf8 text => 1 :: (Bytes.ofUInt16 text.length.toUInt16 ++ text)
  | .integer value => 3 :: Bytes.ofUInt32 value.toUInt32
  | .classRef name => 7 :: Bytes.ofUInt16 name
  | .string text => 8 :: Bytes.ofUInt16 text
  | .fieldRef owner member => 9 :: (Bytes.ofUInt16 owner ++ Bytes.ofUInt16 member)
  | .methodRef owner member => 10 :: (Bytes.ofUInt16 owner ++ Bytes.ofUInt16 member)
  | .nameAndType name descriptor => 12 :: (Bytes.ofUInt16 name ++ Bytes.ofUInt16 descriptor)

def size : Constant → Nat
  | .utf8 text => 3 + text.length
  | .integer _ | .fieldRef .. | .methodRef .. | .nameAndType .. => 5
  | .classRef _ | .string _ => 3

theorem length_bytes (c : Constant) : c.bytes.length = c.size := by
  cases c with
  | utf8 text =>
    simp [bytes, size]
    omega
  | _ => simp [bytes, size]

def readPair (make : UInt16 → UInt16 → Constant) (bytes : Bytes) : Option (Constant × Bytes) := do
  let (a, bytes) ← Bytes.readUInt16 bytes
  let (b, bytes) ← Bytes.readUInt16 bytes
  return (make a b, bytes)

def read : Bytes → Option (Constant × Bytes)
  | [] => none
  | tag :: bytes =>
    match tag.toNat with
    | 1 => do
      let (length, bytes) ← Bytes.readUInt16 bytes
      let (text, bytes) ← Bytes.readExactly length.toNat bytes
      return (.utf8 text, bytes)
    | 3 => (Bytes.readUInt32 bytes).map fun (value, bytes) => (.integer value.toInt32, bytes)
    | 7 => (Bytes.readUInt16 bytes).map fun (name, bytes) => (.classRef name, bytes)
    | 8 => (Bytes.readUInt16 bytes).map fun (text, bytes) => (.string text, bytes)
    | 9 => readPair .fieldRef bytes
    | 10 => readPair .methodRef bytes
    | 12 => readPair .nameAndType bytes
    | _ => none

end Constant

end KnightCode
