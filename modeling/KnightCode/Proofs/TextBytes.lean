import KnightCode.Jvm.ModifiedUtf8

/-!
# Modified UTF-8 read back

A text is read back from its modified UTF-8 bytes. The bytes of a unit and the units of a character are read back one
by one, whatever follows them, so the whole text is read back by induction.
-/

namespace KnightCode.ModifiedUtf8

/-! ## Bytes of a unit

A unit is taken apart into fields of six bits, counted in `Nat`; what the marks of the bytes do to a field is checked
for every value of it.
-/

theorem lead_of_one : ∀ n < 128, n.toUInt8 &&& 0x80 = 0 := by decide

theorem lead_of_two : ∀ n < 32, (n.toUInt8 ||| 0xC0) &&& 0x80 ≠ 0 ∧ (n.toUInt8 ||| 0xC0) &&& 0xE0 = 0xC0 ∧
    (n.toUInt8 ||| 0xC0) &&& 0x1F = n.toUInt8 := by decide

theorem lead_of_three : ∀ n < 16, (n.toUInt8 ||| 0xE0) &&& 0x80 ≠ 0 ∧ (n.toUInt8 ||| 0xE0) &&& 0xE0 ≠ 0xC0 ∧
    (n.toUInt8 ||| 0xE0) &&& 0xF0 = 0xE0 ∧ (n.toUInt8 ||| 0xE0) &&& 0x0F = n.toUInt8 := by decide

theorem continued_follow : ∀ n < 64, (n.toUInt8 ||| 0x80) &&& 0x3F = n.toUInt8 := by decide

theorem shiftRight_toUInt8 (u : UInt16) : (u >>> 6).toUInt8 = (u.toNat / 64).toUInt8 := by
  apply UInt8.toNat_inj.1
  simp [Nat.shiftRight_eq_div_pow]

theorem shiftRight_twelve_toUInt8 (u : UInt16) : (u >>> 12).toUInt8 = (u.toNat / 4096).toUInt8 := by
  apply UInt8.toNat_inj.1
  simp [Nat.shiftRight_eq_div_pow]

theorem and_toUInt8 (u : UInt16) : (u &&& 0x3F).toUInt8 = (u.toNat % 64).toUInt8 := by
  apply UInt8.toNat_inj.1
  simp only [UInt16.toNat_toUInt8, UInt16.toNat_and, Nat.toUInt8_eq, UInt8.toNat_ofNat']
  rw [show (0x3F : UInt16).toNat = 2 ^ 6 - 1 from rfl, Nat.and_two_pow_sub_one_eq_mod]

theorem shiftRight_and_toUInt8 (u : UInt16) : ((u >>> 6) &&& 0x3F).toUInt8 = (u.toNat / 64 % 64).toUInt8 := by
  rw [and_toUInt8]
  simp [Nat.shiftRight_eq_div_pow]

theorem or_field {high low : Nat} (h : low < 64) : high * 64 ||| low = high * 64 + low := by
  have hshift : high * 64 = high <<< 6 := (Nat.shiftLeft_eq high 6).symm
  rw [hshift, Nat.shiftLeft_add_eq_or_of_lt h]

/-- A byte that is shifted left by `k` bits is multiplied by the `k`th power of two. -/
theorem toNat_field {n : Nat} (k scale : Nat) (shift : UInt16) (hs : shift.toNat = k) (hk : k < 16)
    (hscale : 1 <<< k = scale) (h : n * scale < 65536) (hn : n < 256) :
    (n.toUInt8.toUInt16 <<< shift).toNat = n * scale := by
  subst hscale
  have hshift : n <<< k = n * 1 <<< k := by rw [Nat.shiftLeft_eq, Nat.one_shiftLeft]
  rw [UInt16.toNat_shiftLeft, hs, Nat.mod_eq_of_lt hk, UInt8.toNat_toUInt16, Nat.toUInt8_eq, UInt8.toNat_ofNat',
    Nat.mod_eq_of_lt hn, hshift, Nat.mod_eq_of_lt h]

theorem join_two {u : UInt16} (h : u.toNat < 2048) :
    (u.toNat / 64).toUInt8.toUInt16 <<< 6 ||| (u.toNat % 64).toUInt8.toUInt16 <<< 0 = u := by
  apply UInt16.toNat_inj.1
  rw [UInt16.toNat_or, toNat_field 6 64 6 rfl (by decide) rfl (by omega) (by omega),
    toNat_field 0 1 0 rfl (by decide) rfl (by omega) (by omega), Nat.mul_one, or_field (by omega)]
  omega

theorem join_three (u : UInt16) :
    (u.toNat / 4096).toUInt8.toUInt16 <<< 12 ||| (u.toNat / 64 % 64).toUInt8.toUInt16 <<< 6 |||
      (u.toNat % 64).toUInt8.toUInt16 <<< 0 = u := by
  have hu := u.toNat_lt
  apply UInt16.toNat_inj.1
  have hhigh : u.toNat / 4096 * 4096 ||| u.toNat / 64 % 64 * 64 = u.toNat / 64 * 64 := by
    rw [show u.toNat / 4096 * 4096 = (u.toNat / 4096) <<< 12 from (Nat.shiftLeft_eq _ 12).symm,
      ← Nat.shiftLeft_add_eq_or_of_lt (show u.toNat / 64 % 64 * 64 < 4096 by omega), Nat.shiftLeft_eq]
    omega
  rw [UInt16.toNat_or, UInt16.toNat_or, toNat_field 12 4096 12 rfl (by decide) rfl (by omega) (by omega),
    toNat_field 6 64 6 rfl (by decide) rfl (by omega) (by omega),
    toNat_field 0 1 0 rfl (by decide) rfl (by omega) (by omega), Nat.mul_one, hhigh, or_field (by omega)]
  omega

theorem unitsOnto_one {u : UInt16} (h : u.toNat < 128) (acc : List UInt16) (rest : Bytes) :
    unitsOnto acc (u.toUInt8 :: rest) = unitsOnto (u :: acc) rest := by
  have hbyte : u.toUInt8 = u.toNat.toUInt8 := by simp
  have hlead : u.toUInt8 &&& 0x80 = 0 := by rw [hbyte]; exact lead_of_one _ h
  have hback : u.toUInt8.toUInt16 = u := by
    apply UInt16.toNat_inj.1
    rw [UInt8.toNat_toUInt16, UInt16.toNat_toUInt8]
    omega
  cases rest with
  | nil => simp only [unitsOnto, if_pos hlead, hback]
  | cons b rest => rw [unitsOnto.eq_def]; simp only [if_pos hlead, hback]

theorem unitsOnto_two {u : UInt16} (h : u.toNat < 2048) (acc : List UInt16) (rest : Bytes) :
    unitsOnto acc (((u >>> 6).toUInt8 ||| 0xC0) :: ((u &&& 0x3F).toUInt8 ||| 0x80) :: rest) =
      unitsOnto (u :: acc) rest := by
  rw [shiftRight_toUInt8, and_toUInt8]
  obtain ⟨hmark, hlead, hfield⟩ := lead_of_two (u.toNat / 64) (by omega)
  have hfollow := continued_follow (u.toNat % 64) (by omega)
  rw [unitsOnto.eq_def]
  simp only [if_neg hmark, if_pos hlead]
  rw [continued, hfield, hfollow, join_two h]

theorem unitsOnto_three (u : UInt16) (acc : List UInt16) (rest : Bytes) :
    unitsOnto acc (((u >>> 12).toUInt8 ||| 0xE0) :: (((u >>> 6) &&& 0x3F).toUInt8 ||| 0x80) ::
      ((u &&& 0x3F).toUInt8 ||| 0x80) :: rest) = unitsOnto (u :: acc) rest := by
  have hu := u.toNat_lt
  rw [shiftRight_twelve_toUInt8, shiftRight_and_toUInt8, and_toUInt8]
  obtain ⟨hmark, hnot, hlead, hfield⟩ := lead_of_three (u.toNat / 4096) (by omega)
  have hmiddle := continued_follow (u.toNat / 64 % 64) (by omega)
  have hfollow := continued_follow (u.toNat % 64) (by omega)
  rw [unitsOnto.eq_def]
  simp only [if_neg hmark, if_neg hnot, if_pos hlead]
  rw [continued, continued, hfield, hmiddle, hfollow, join_three]

theorem unitsOnto_unitBytes (u : UInt16) (acc : List UInt16) (rest : Bytes) :
    unitsOnto acc (unitBytes u ++ rest) = unitsOnto (u :: acc) rest := by
  unfold unitBytes
  split
  · next h =>
    have : u ≤ 0x7F := by simp at h; exact h.2
    have : u.toNat ≤ 127 := this
    exact unitsOnto_one (by omega) acc rest
  · split
    · next h =>
      have : u.toNat ≤ 2047 := h
      exact unitsOnto_two (by omega) acc rest
    · exact unitsOnto_three u acc rest

theorem unitsOnto_flatMap (units : List UInt16) (acc : List UInt16) :
    unitsOnto acc (units.flatMap unitBytes) = acc.reverse ++ units := by
  induction units generalizing acc with
  | nil => simp [unitsOnto]
  | cons u units ih =>
    rw [List.flatMap_cons, unitsOnto_unitBytes, ih]
    simp

/-! ## Units of a character -/

theorem not_surrogate (c : Char) (h : c.toNat < 0x10000) :
    isHighSurrogate c.toNat.toUInt16 = false ∧ isLowSurrogate c.toNat.toUInt16 = false := by
  have hvalid : c.toNat < 0xD800 ∨ 0xDFFF < c.toNat ∧ c.toNat < 0x110000 := c.valid
  have hn : c.toNat.toUInt16.toNat = c.toNat := by simpa using h
  simp only [isHighSurrogate, isLowSurrogate, Bool.and_eq_false_iff, decide_eq_false_iff_not, UInt16.le_iff_toNat_le,
    hn, UInt16.reduceToNat]
  omega

theorem textOnto_one (c : Char) (h : c.toNat < 0x10000) (acc : List Char) (rest : List UInt16) :
    textOnto acc (c.toNat.toUInt16 :: rest) = textOnto (c :: acc) rest := by
  obtain ⟨hhigh, hlow⟩ := not_surrogate c h
  have hback : Char.ofNat c.toNat.toUInt16.toNat = c := by
    rw [show c.toNat.toUInt16.toNat = c.toNat by simpa using h, Char.ofNat_toNat]
  cases rest with
  | nil => simp only [textOnto, hhigh, hlow, hback, Bool.or_self, Bool.false_eq_true, if_false]
  | cons v rest => rw [textOnto, if_neg (by simp [hhigh]), if_neg (by simp [hlow]), hback]

theorem textOnto_pair (c : Char) (h : 0x10000 ≤ c.toNat) (acc : List Char) (rest : List UInt16) :
    textOnto acc ((0xD800 + (c.toNat - 0x10000) / 0x400).toUInt16 ::
      (0xDC00 + (c.toNat - 0x10000) % 0x400).toUInt16 :: rest) = textOnto (c :: acc) rest := by
  have hvalid : c.toNat < 0xD800 ∨ 0xDFFF < c.toNat ∧ c.toNat < 0x110000 := c.valid
  -- Neither half overflows its word, so the arithmetic is that of numbers.
  have hn : (0xD800 + (c.toNat - 0x10000) / 0x400).toUInt16.toNat = 0xD800 + (c.toNat - 0x10000) / 0x400 := by
    rw [Nat.toUInt16_eq, UInt16.toNat_ofNat', Nat.mod_eq_of_lt (by omega)]
  have hm : (0xDC00 + (c.toNat - 0x10000) % 0x400).toUInt16.toNat = 0xDC00 + (c.toNat - 0x10000) % 0x400 := by
    rw [Nat.toUInt16_eq, UInt16.toNat_ofNat', Nat.mod_eq_of_lt (by omega)]
  have hhigh : isHighSurrogate (0xD800 + (c.toNat - 0x10000) / 0x400).toUInt16 = true := by
    simp only [isHighSurrogate, Bool.and_eq_true, decide_eq_true_eq, UInt16.le_iff_toNat_le, hn, UInt16.reduceToNat]
    omega
  have hlow : isLowSurrogate (0xDC00 + (c.toNat - 0x10000) % 0x400).toUInt16 = true := by
    simp only [isLowSurrogate, Bool.and_eq_true, decide_eq_true_eq, UInt16.le_iff_toNat_le, hm, UInt16.reduceToNat]
    omega
  rw [textOnto, if_pos hhigh, if_pos hlow, joinSurrogates, hn, hm]
  rw [show 0x10000 + (0xD800 + (c.toNat - 0x10000) / 0x400 - 0xD800) * 0x400 +
    (0xDC00 + (c.toNat - 0x10000) % 0x400 - 0xDC00) = c.toNat by omega, Char.ofNat_toNat]

theorem textOnto_units (c : Char) (acc : List Char) (rest : List UInt16) :
    textOnto acc (units c ++ rest) = textOnto (c :: acc) rest := by
  simp only [units]
  split
  · next h => exact textOnto_one c h acc rest
  · next h => exact textOnto_pair c (by omega) acc rest

theorem textOnto_flatMap (text : List Char) (acc : List Char) :
    textOnto acc (text.flatMap units) = acc.reverse ++ text := by
  induction text generalizing acc with
  | nil => simp [textOnto]
  | cons c text ih =>
    rw [List.flatMap_cons, textOnto_units, ih]
    simp

/-! ## Texts -/

theorem encode_eq (text : String) : encode text = (text.toList.flatMap units).flatMap unitBytes := by
  rw [encode, List.flatMap_assoc]

@[simp] theorem decode_encode (text : String) : decode (encode text) = text := by
  rw [encode_eq, decode, unitsOnto_flatMap, List.reverse_nil, List.nil_append, textOnto_flatMap, List.reverse_nil,
    List.nil_append, String.ofList_toList]

theorem encode_injective {s t : String} (h : encode s = encode t) : s = t := by
  rw [← decode_encode s, h, decode_encode]

end KnightCode.ModifiedUtf8
