/-!
# Bytes

Byte strings and the big-endian words in them. Everything that is stored in a class file comes as a pair: one
function gives the bytes, the other reads them at the front of a byte string and gives back the rest.
-/

namespace KnightCode

abbrev Bytes := List UInt8

namespace Bytes

/-! ## Words -/

/-- Two bytes, the high one first. -/
def ofUInt16 (n : UInt16) : Bytes := [(n >>> 8).toUInt8, n.toUInt8]

def ofUInt32 (n : UInt32) : Bytes :=
  [(n >>> 24).toUInt8, (n >>> 16).toUInt8, (n >>> 8).toUInt8, n.toUInt8]

def readUInt8 : Bytes → Option (UInt8 × Bytes)
  | a :: rest => some (a, rest)
  | [] => none

def readUInt16 : Bytes → Option (UInt16 × Bytes)
  | a :: b :: rest => some (a.toUInt16 <<< 8 ||| b.toUInt16, rest)
  | _ => none

def readUInt32 : Bytes → Option (UInt32 × Bytes)
  | a :: b :: c :: d :: rest =>
    some (a.toUInt32 <<< 24 ||| b.toUInt32 <<< 16 ||| c.toUInt32 <<< 8 ||| d.toUInt32, rest)
  | _ => none

/-! ## Runs -/

def readExactly (n : Nat) (bytes : Bytes) : Option (Bytes × Bytes) :=
  let front := bytes.take n
  if front.length = n then some (front, bytes.drop n) else none

/-- Reads `n` items one after the other onto the reversed list `acc`. -/
def readManyOnto {α : Type} (read : Bytes → Option (α × Bytes)) : Nat → List α → Bytes → Option (List α × Bytes)
  | 0, acc, bytes => some (acc.reverse, bytes)
  | n + 1, acc, bytes =>
    match read bytes with
    | some (a, rest) => readManyOnto read n (a :: acc) rest
    | none => none

def readMany {α : Type} (read : Bytes → Option (α × Bytes)) (n : Nat) (bytes : Bytes) : Option (List α × Bytes) :=
  readManyOnto read n [] bytes

/-! ## Small laws -/

@[simp] theorem length_ofUInt16 (n : UInt16) : (ofUInt16 n).length = 2 := rfl

@[simp] theorem length_ofUInt32 (n : UInt32) : (ofUInt32 n).length = 4 := rfl

theorem readExactly_append (front rest : Bytes) :
    readExactly front.length (front ++ rest) = some (front, rest) := by
  simp [readExactly]

end Bytes

end KnightCode
