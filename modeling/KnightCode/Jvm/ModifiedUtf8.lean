import KnightCode.Bytes

/-!
# Modified UTF-8

How a class file stores text. A text is taken as UTF-16 units; each unit becomes one, two or three bytes. The unit
zero takes two bytes, so no zero byte occurs, and a character beyond the basic plane takes two units of three bytes.
Reading never fails: a byte that starts no unit, and a surrogate without its partner, read as U+FFFD.
-/

namespace KnightCode.ModifiedUtf8

/-! ## Units of a text -/

def isHighSurrogate (u : UInt16) : Bool := 0xD800 ≤ u && u ≤ 0xDBFF

def isLowSurrogate (u : UInt16) : Bool := 0xDC00 ≤ u && u ≤ 0xDFFF

/-- The UTF-16 units of a character: one, or a high and a low surrogate. -/
def units (c : Char) : List UInt16 :=
  let n := c.toNat
  if n < 0x10000 then [n.toUInt16]
  else [(0xD800 + (n - 0x10000) / 0x400).toUInt16, (0xDC00 + (n - 0x10000) % 0x400).toUInt16]

def joinSurrogates (high low : UInt16) : Char :=
  Char.ofNat (0x10000 + (high.toNat - 0xD800) * 0x400 + (low.toNat - 0xDC00))

def replacement : Char := Char.ofNat 0xFFFD

def textOnto (acc : List Char) : List UInt16 → List Char
  | [] => acc.reverse
  | [u] =>
    textOnto ((if isHighSurrogate u || isLowSurrogate u then replacement else Char.ofNat u.toNat) :: acc) []
  | u :: v :: rest =>
    if isHighSurrogate u then
      if isLowSurrogate v then textOnto (joinSurrogates u v :: acc) rest
      else textOnto (replacement :: acc) (v :: rest)
    else if isLowSurrogate u then textOnto (replacement :: acc) (v :: rest)
    else textOnto (Char.ofNat u.toNat :: acc) (v :: rest)

/-! ## Bytes of a unit -/

def unitBytes (u : UInt16) : Bytes :=
  if 1 ≤ u && u ≤ 0x7F then [u.toUInt8]
  else if u ≤ 0x7FF then [(u >>> 6).toUInt8 ||| 0xC0, (u &&& 0x3F).toUInt8 ||| 0x80]
  else [(u >>> 12).toUInt8 ||| 0xE0, ((u >>> 6) &&& 0x3F).toUInt8 ||| 0x80, (u &&& 0x3F).toUInt8 ||| 0x80]

/-- The low six bits of a byte, moved up. -/
def continued (b : UInt8) (shift : UInt16) : UInt16 := (b &&& 0x3F).toUInt16 <<< shift

def unitsOnto (acc : List UInt16) : Bytes → List UInt16
  | [] => acc.reverse
  | [a] => unitsOnto ((if a &&& 0x80 = 0 then a.toUInt16 else 0xFFFD) :: acc) []
  | a :: b :: rest =>
    if a &&& 0x80 = 0 then unitsOnto (a.toUInt16 :: acc) (b :: rest)
    -- Of the bytes that follow, only the low six bits are looked at.
    else if a &&& 0xE0 = 0xC0 then unitsOnto (((a &&& 0x1F).toUInt16 <<< 6 ||| continued b 0) :: acc) rest
    else if a &&& 0xF0 = 0xE0 then
      match rest with
      | c :: rest => unitsOnto (((a &&& 0x0F).toUInt16 <<< 12 ||| continued b 6 ||| continued c 0) :: acc) rest
      -- The second byte may start a unit of its own.
      | [] => unitsOnto (0xFFFD :: acc) [b]
    else unitsOnto (0xFFFD :: acc) (b :: rest)

/-! ## Texts -/

def encode (text : String) : Bytes := text.toList.flatMap fun c => (units c).flatMap unitBytes

def decode (bytes : Bytes) : String := String.ofList (textOnto [] (unitsOnto [] bytes))

end KnightCode.ModifiedUtf8
