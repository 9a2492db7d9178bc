import KnightCode.Jvm.ClassFile
import KnightCode.Proofs.TextBytes

/-!
# Bytes that are read as text

Reading looks at the first byte of a unit and at the six low bits of the bytes after it, and at nothing else. So a text
is read from its own bytes and from looser ones, in which a unit takes more bytes than it needs or the high bits of a
later byte are not those of a later byte. Whatever else there is among the bytes shows as U+FFFD.
-/

namespace KnightCode.ModifiedUtf8

/-! ## Loose bytes -/

/-- Bytes of which a unit is read. -/
inductive LooseUnit (u : UInt16) : Bytes → Prop
  | one {a : UInt8} (lead : a.toNat < 0x80) (value : u.toNat = a.toNat) : LooseUnit u [a]
  | two {a b : UInt8} (lead : 0xC0 ≤ a.toNat ∧ a.toNat < 0xE0)
      (value : u.toNat = a.toNat % 32 * 64 + b.toNat % 64) : LooseUnit u [a, b]
  | three {a b c : UInt8} (lead : 0xE0 ≤ a.toNat ∧ a.toNat < 0xF0)
      (value : u.toNat = a.toNat % 16 * 4096 + b.toNat % 64 * 64 + c.toNat % 64) : LooseUnit u [a, b, c]

inductive LooseUnits : List UInt16 → Bytes → Prop
  | nil : LooseUnits [] []
  | cons {u : UInt16} {us : List UInt16} {first rest : Bytes} (unit : LooseUnit u first) (more : LooseUnits us rest) :
      LooseUnits (u :: us) (first ++ rest)

def LooseText (text : String) (bytes : Bytes) : Prop := LooseUnits (text.toList.flatMap units) bytes

/-! ### The marks and the fields of a byte -/

theorem toUInt8_toNat (a : UInt8) : a.toNat.toUInt8 = a := by simp

theorem lead_one_iff (a : UInt8) : a &&& 0x80 = 0 ↔ a.toNat < 0x80 := by
  have htable : ∀ n < 256, n.toUInt8 &&& 0x80 = 0 ↔ n < 0x80 := by decide +kernel
  simpa only [toUInt8_toNat] using htable a.toNat a.toNat_lt

theorem lead_two_iff (a : UInt8) : a &&& 0xE0 = 0xC0 ↔ 0xC0 ≤ a.toNat ∧ a.toNat < 0xE0 := by
  have htable : ∀ n < 256, n.toUInt8 &&& 0xE0 = 0xC0 ↔ 0xC0 ≤ n ∧ n < 0xE0 := by decide +kernel
  simpa only [toUInt8_toNat] using htable a.toNat a.toNat_lt

theorem lead_three_iff (a : UInt8) : a &&& 0xF0 = 0xE0 ↔ 0xE0 ≤ a.toNat ∧ a.toNat < 0xF0 := by
  have htable : ∀ n < 256, n.toUInt8 &&& 0xF0 = 0xE0 ↔ 0xE0 ≤ n ∧ n < 0xF0 := by decide +kernel
  simpa only [toUInt8_toNat] using htable a.toNat a.toNat_lt

theorem and_mask (a mask : UInt8) (modulus : Nat) (h : ∀ n < 256, n &&& mask.toNat = n % modulus) :
    a &&& mask = (a.toNat % modulus).toUInt8 := by
  apply UInt8.toNat_inj.1
  have hlt : a.toNat % modulus < 256 := Nat.lt_of_le_of_lt (Nat.mod_le _ _) a.toNat_lt
  rw [UInt8.toNat_and, h a.toNat a.toNat_lt, Nat.toUInt8_eq, UInt8.toNat_ofNat', Nat.mod_eq_of_lt hlt]

theorem and_low_six (a : UInt8) : a &&& 0x3F = (a.toNat % 64).toUInt8 := and_mask a 0x3F 64 (by decide +kernel)

theorem toNat_unit_two (a b : UInt8) :
    ((a &&& 0x1F).toUInt16 <<< 6 ||| continued b 0).toNat = a.toNat % 32 * 64 + b.toNat % 64 := by
  rw [continued, and_mask a 0x1F 32 (by decide +kernel), and_low_six, UInt16.toNat_or,
    toNat_field 6 64 6 rfl (by decide) rfl (by omega) (by omega),
    toNat_field 0 1 0 rfl (by decide) rfl (by omega) (by omega), Nat.mul_one, or_field (by omega)]

theorem toNat_unit_three (a b c : UInt8) :
    ((a &&& 0x0F).toUInt16 <<< 12 ||| continued b 6 ||| continued c 0).toNat =
      a.toNat % 16 * 4096 + b.toNat % 64 * 64 + c.toNat % 64 := by
  have hhigh : a.toNat % 16 * 4096 ||| b.toNat % 64 * 64 = (a.toNat % 16 * 64 + b.toNat % 64) * 64 := by
    rw [show a.toNat % 16 * 4096 = (a.toNat % 16) <<< 12 from (Nat.shiftLeft_eq _ 12).symm,
      ← Nat.shiftLeft_add_eq_or_of_lt (show b.toNat % 64 * 64 < 4096 by omega), Nat.shiftLeft_eq]
    omega
  rw [continued, continued, and_mask a 0x0F 16 (by decide +kernel), and_low_six, and_low_six, UInt16.toNat_or,
    UInt16.toNat_or, toNat_field 12 4096 12 rfl (by decide) rfl (by omega) (by omega),
    toNat_field 6 64 6 rfl (by decide) rfl (by omega) (by omega),
    toNat_field 0 1 0 rfl (by decide) rfl (by omega) (by omega), Nat.mul_one, hhigh, or_field (by omega)]
  omega

/-! ## Units -/

theorem toNat_lead_two : ∀ n < 32, (n.toUInt8 ||| 0xC0).toNat = 0xC0 + n := by decide

theorem toNat_lead_three : ∀ n < 16, (n.toUInt8 ||| 0xE0).toNat = 0xE0 + n := by decide

theorem toNat_follow : ∀ n < 64, (n.toUInt8 ||| 0x80).toNat = 0x80 + n := by decide

theorem looseUnit_unitBytes (u : UInt16) : LooseUnit u (unitBytes u) := by
  have hu := u.toNat_lt
  unfold unitBytes
  rw [shiftRight_and_toUInt8, shiftRight_toUInt8, shiftRight_twelve_toUInt8, and_toUInt8]
  -- One, two or three bytes, by the size of the unit.
  split
  · next h =>
    have hsmall : u.toNat ≤ 127 := by simp [UInt16.le_iff_toNat_le] at h; exact h.2
    have hbyte : u.toUInt8.toNat = u.toNat := by
      rw [UInt16.toNat_toUInt8]
      omega
    exact .one (by omega) hbyte.symm
  · split
    · next h =>
      have hsmall : u.toNat ≤ 2047 := h
      have hlead := toNat_lead_two (u.toNat / 64) (by omega)
      have hfollow := toNat_follow (u.toNat % 64) (by omega)
      exact .two (by omega) (by omega)
    · have hlead := toNat_lead_three (u.toNat / 4096) (by omega)
      have hmiddle := toNat_follow (u.toNat / 64 % 64) (by omega)
      have hfollow := toNat_follow (u.toNat % 64) (by omega)
      exact .three (by omega) (by omega)

theorem LooseUnit.unitsOnto_eq {u : UInt16} {first : Bytes} (h : LooseUnit u first) (acc : List UInt16)
    (rest : Bytes) : unitsOnto acc (first ++ rest) = unitsOnto (u :: acc) rest := by
  cases h with
  | @one a lead value =>
    have hunit : a.toUInt16 = u := UInt16.toNat_inj.1 (by rw [UInt8.toNat_toUInt16, value])
    have hlead := (lead_one_iff a).2 lead
    cases rest with
    | nil => simp [unitsOnto, hlead, hunit]
    | cons b rest => rw [List.singleton_append, unitsOnto.eq_def]; simp only [if_pos hlead, hunit]
  | @two a b lead value =>
    have hnot : ¬a &&& 0x80 = 0 := by rw [lead_one_iff]; omega
    have hunit := UInt16.toNat_inj.1 ((toNat_unit_two a b).trans value.symm)
    rw [List.cons_append, List.singleton_append, unitsOnto.eq_def]
    simp only [if_neg hnot, if_pos ((lead_two_iff a).2 lead), hunit]
  | @three a b c lead value =>
    have hnot : ¬a &&& 0x80 = 0 := by rw [lead_one_iff]; omega
    have hnot' : ¬a &&& 0xE0 = 0xC0 := by rw [lead_two_iff]; omega
    have hunit := UInt16.toNat_inj.1 ((toNat_unit_three a b c).trans value.symm)
    rw [List.cons_append, List.cons_append, List.singleton_append, unitsOnto.eq_def]
    simp only [if_neg hnot, if_neg hnot', if_pos ((lead_three_iff a).2 lead), hunit]

theorem LooseUnits.unitsOnto_eq {us : List UInt16} {bytes : Bytes} (h : LooseUnits us bytes) (acc : List UInt16) :
    unitsOnto acc bytes = acc.reverse ++ us := by
  induction h generalizing acc with
  | nil => simp [unitsOnto]
  | cons unit more ih =>
    rw [unit.unitsOnto_eq, ih]
    simp

/-- Bytes are read as the units whose loose bytes they are, or a unit U+FFFD is among those that are read. -/
theorem unitsOnto_loose_or_unreadable (acc : List UInt16) (bytes : Bytes) :
    ∃ us, unitsOnto acc bytes = acc.reverse ++ us ∧ (LooseUnits us bytes ∨ 0xFFFD ∈ us) := by
  -- A unit that has been read goes before the others; it is loose, or it stands for a byte that starts no unit.
  have read : ∀ {acc : List UInt16} {u : UInt16} {rest : Bytes} (first : Bytes), LooseUnit u first ∨ u = 0xFFFD →
      (∃ us, unitsOnto (u :: acc) rest = (u :: acc).reverse ++ us ∧ (LooseUnits us rest ∨ 0xFFFD ∈ us)) →
      ∃ us, unitsOnto (u :: acc) rest = acc.reverse ++ us ∧ (LooseUnits us (first ++ rest) ∨ 0xFFFD ∈ us) := by
    rintro acc u rest first hunit ⟨us, hread, hus⟩
    refine ⟨u :: us, by rw [hread]; simp, ?_⟩
    rcases hunit with hunit | rfl
    · exact hus.imp (.cons hunit) (.tail _)
    · exact .inr (.head _)
  fun_induction unitsOnto acc bytes with
  | case1 acc => exact ⟨[], by simp, .inl .nil⟩
  | case2 acc a ih =>
    refine read [a] ?_ ih
    split
    · next h => exact .inl (.one ((lead_one_iff a).1 h) rfl)
    · exact .inr rfl
  | case3 acc a b rest h ih => exact read [a] (.inl (.one ((lead_one_iff a).1 h) rfl)) ih
  | case4 acc a b rest h h' ih =>
    exact read [a, b] (.inl (.two ((lead_two_iff a).1 h') (toNat_unit_two a b))) ih
  | case5 acc a b h h' h'' c rest ih =>
    exact read [a, b, c] (.inl (.three ((lead_three_iff a).1 h'') (toNat_unit_three a b c))) ih
  | case6 acc a b h h' h'' ih => exact read [a] (.inr rfl) ih
  | case7 acc a b rest h h' h'' ih => exact read [a] (.inr rfl) ih

/-! ## Characters -/

/-- U+FFFD is one unit, and no part of another character. -/
theorem eq_replacement_of_mem_units {c : Char} (h : 0xFFFD ∈ units c) : c = replacement := by
  have hvalid : c.toNat < 0xD800 ∨ 0xDFFF < c.toNat ∧ c.toNat < 0x110000 := c.valid
  have hnat : ∀ n : Nat, (0xFFFD : UInt16) = n.toUInt16 → 0xFFFD = n % 65536 := fun n => congrArg UInt16.toNat
  simp only [units] at h
  split at h
  · have hc := hnat _ (List.mem_singleton.1 h)
    rw [← Char.ofNat_toNat c, replacement, show c.toNat = 0xFFFD by omega]
  · rcases List.mem_cons.1 h with h | h
    · have := hnat _ h
      omega
    · have := hnat _ (List.mem_singleton.1 h)
      omega

theorem toNat_ofNat {n : Nat} (h : n.isValidChar) : (Char.ofNat n).toNat = n := by
  rw [Char.ofNat, dif_pos h]
  rfl

theorem units_ofNat {u : UInt16} (hhigh : ¬isHighSurrogate u = true) (hlow : ¬isLowSurrogate u = true) :
    units (Char.ofNat u.toNat) = [u] := by
  have hlt := u.toNat_lt
  have hnat : (Char.ofNat u.toNat).toNat = u.toNat := by
    simp [isHighSurrogate, isLowSurrogate, UInt16.le_iff_toNat_le] at hhigh hlow
    apply toNat_ofNat
    unfold Nat.isValidChar
    omega
  simp only [units, hnat, if_pos hlt]
  simp

theorem units_joinSurrogates {u v : UInt16} (hhigh : isHighSurrogate u = true) (hlow : isLowSurrogate v = true) :
    units (joinSurrogates u v) = [u, v] := by
  simp only [isHighSurrogate, isLowSurrogate, Bool.and_eq_true, decide_eq_true_eq, UInt16.le_iff_toNat_le,
    UInt16.reduceToNat] at hhigh hlow
  have hnat : (joinSurrogates u v).toNat = 0x10000 + (u.toNat - 0xD800) * 0x400 + (v.toNat - 0xDC00) := by
    apply toNat_ofNat
    unfold Nat.isValidChar
    omega
  have hfirst : 0xD800 + ((joinSurrogates u v).toNat - 0x10000) / 0x400 = u.toNat := by omega
  have hsecond : 0xDC00 + ((joinSurrogates u v).toNat - 0x10000) % 0x400 = v.toNat := by omega
  have hbeyond : ¬(joinSurrogates u v).toNat < 0x10000 := by omega
  simp only [units, if_neg hbeyond, hfirst, hsecond]
  simp

theorem textOnto_units_or_unreadable (acc : List Char) (us : List UInt16) :
    ∃ text, textOnto acc us = acc.reverse ++ text ∧ (text.flatMap units = us ∨ replacement ∈ text) := by
  -- A character that has been read goes before the others; it has its units, or it stands for a lone surrogate.
  have read : ∀ {acc : List Char} {c : Char} {rest : List UInt16} (first : List UInt16),
      units c = first ∨ c = replacement →
      (∃ text, textOnto (c :: acc) rest = (c :: acc).reverse ++ text ∧
        (text.flatMap units = rest ∨ replacement ∈ text)) →
      ∃ text, textOnto (c :: acc) rest = acc.reverse ++ text ∧
        (text.flatMap units = first ++ rest ∨ replacement ∈ text) := by
    rintro acc c rest first hchar ⟨text, hread, htext⟩
    refine ⟨c :: text, by rw [hread]; simp, ?_⟩
    rcases hchar with rfl | rfl
    · exact htext.imp (fun h => by rw [List.flatMap_cons, h]) (.tail _)
    · exact .inr (.head _)
  fun_induction textOnto acc us with
  | case1 acc => exact ⟨[], by simp, .inl rfl⟩
  | case2 acc u ih =>
    refine read [u] ?_ ih
    split
    · exact .inr rfl
    · next h =>
      simp at h
      exact .inl (units_ofNat (by simp [h]) (by simp [h]))
  | case3 acc u v rest h h' ih => exact read [u, v] (.inl (units_joinSurrogates h h')) ih
  | case4 acc u v rest h h' ih => exact read [u] (.inr rfl) ih
  | case5 acc u v rest h h' ih => exact read [u] (.inr rfl) ih
  | case6 acc u v rest h h' ih => exact read [u] (.inl (units_ofNat h h')) ih

/-! ## Texts -/

theorem looseText_encode (text : String) : LooseText text (encode text) := by
  rw [encode_eq, LooseText]
  induction text.toList.flatMap units with
  | nil => exact .nil
  | cons u us ih => exact .cons (looseUnit_unitBytes u) ih

theorem LooseText.decode_eq {text : String} {bytes : Bytes} (h : LooseText text bytes) : decode bytes = text := by
  rw [decode, LooseUnits.unitsOnto_eq h, List.reverse_nil, List.nil_append, textOnto_flatMap, List.reverse_nil,
    List.nil_append, String.ofList_toList]

theorem looseText_of_readable {bytes : Bytes} (h : replacement ∉ (decode bytes).toList) :
    LooseText (decode bytes) bytes := by
  obtain ⟨us, hus, hloose⟩ := unitsOnto_loose_or_unreadable [] bytes
  obtain ⟨text, htext, hunits⟩ := textOnto_units_or_unreadable [] us
  have hread : (decode bytes).toList = text := by
    rw [decode, hus, List.reverse_nil, List.nil_append, htext, List.reverse_nil, List.nil_append, String.toList_ofList]
  rw [hread] at h
  have hunits := hunits.resolve_right h
  have hreadable : 0xFFFD ∉ us := by
    rw [← hunits]
    intro hmem
    obtain ⟨c, hc, hunit⟩ := List.mem_flatMap.1 hmem
    exact h (eq_replacement_of_mem_units hunit ▸ hc)
  rw [LooseText, hread, hunits]
  exact hloose.resolve_right hreadable

theorem decode_eq_iff {text : String} (h : replacement ∉ text.toList) (bytes : Bytes) :
    decode bytes = text ↔ LooseText text bytes := by
  refine ⟨?_, LooseText.decode_eq⟩
  rintro rfl
  exact looseText_of_readable h

end KnightCode.ModifiedUtf8

namespace KnightCode

open ModifiedUtf8

/-! ## Names in a class -/

namespace ConstantPool

/-- The entry is a text constant whose bytes are loose ones of this text. -/
def HasLooseText (pool : ConstantPool) (index : UInt16) (text : String) : Prop :=
  ∃ bytes, pool.get? index = some (.utf8 bytes) ∧ LooseText text bytes

variable {pool : ConstantPool} {index : UInt16} {name : String}

theorem textBytes?_eq_some {bytes : Bytes} : pool.textBytes? index = some bytes ↔ pool.get? index = some (.utf8 bytes) := by
  unfold textBytes?
  split
  · next h => simp [h]
  · next h =>
    refine ⟨by simp, ?_⟩
    intro hget
    exact absurd hget (h bytes)

theorem text?_eq_some_iff (h : replacement ∉ name.toList) :
    pool.text? index = some name ↔ pool.HasLooseText index name := by
  simp only [text?, HasLooseText, Option.map_eq_some_iff, textBytes?_eq_some, decode_eq_iff h]

theorem className?_eq_some_iff (h : replacement ∉ name.toList) :
    pool.className? index = some name ↔ ∃ text, pool.get? index = some (.classRef text) ∧ pool.HasLooseText text name := by
  unfold className?
  split
  · next text hget => simp [hget, text?_eq_some_iff h]
  · next hother =>
    refine ⟨by simp, ?_⟩
    rintro ⟨text, hget, -⟩
    exact absurd hget (hother text)

end ConstantPool

theorem ClassFile.method?_eq_some {c : ClassFile} {name : String} {m : Member} (h : replacement ∉ name.toList)
    (hm : c.method? name = some m) : m ∈ c.methods ∧ c.pool.HasLooseText m.name name := by
  refine ⟨List.mem_of_find?_eq_some hm, ?_⟩
  rw [← ConstantPool.text?_eq_some_iff h]
  simpa using List.find?_some hm

namespace ModifiedUtf8

/-- The bytes of a text are loose bytes of it. Bytes that are no loose bytes of any text show U+FFFD, and loose bytes of a
text are read as this text. So whatever a class finds under a name without U+FFFD is spelled with loose bytes of this
name. -/
theorem unreadable_bytes_show (bytes : Bytes) :
    (∀ text, LooseText text (encode text)) ∧
    ((∀ text, ¬LooseText text bytes) → replacement ∈ (decode bytes).toList) ∧
    (∀ text, LooseText text bytes → decode bytes = text) ∧
    ∀ (c : ClassFile) (name : String), replacement ∉ name.toList →
      (∀ i, c.pool.text? i = some name ↔ c.pool.HasLooseText i name) ∧
      (∀ i, c.pool.className? i = some name ↔
        ∃ text, c.pool.get? i = some (.classRef text) ∧ c.pool.HasLooseText text name) ∧
      ∀ m, c.method? name = some m → m ∈ c.methods ∧ c.pool.HasLooseText m.name name := by
  refine ⟨looseText_encode, ?_, fun _ => LooseText.decode_eq, ?_⟩
  · intro hnone
    exact Decidable.byContradiction fun hreadable => hnone _ (looseText_of_readable hreadable)
  · intro c name hname
    exact ⟨fun _ => ConstantPool.text?_eq_some_iff hname, fun _ => ConstantPool.className?_eq_some_iff hname,
      fun _ => ClassFile.method?_eq_some hname⟩

def loneSurrogate : Bytes := [0xED, 0xA0, 0x80]

/-- A first byte of two, and after it a byte that is no later byte. -/
def strayBracket : Bytes := [0xC3, 0x28]

def strayNamed : ClassFile :=
  ⟨0, 52, .ofList [.utf8 strayBracket, .classRef 1] 3, 0, 2, 0, 0, [], 0, [], 1, [⟨9, 1, 1, 0, []⟩], 0, []⟩

theorem unreadable_bytes_show_strays :
    (∀ text, ¬LooseText text loneSurrogate) ∧ replacement ∈ (decode loneSurrogate).toList ∧
    LooseText "è" strayBracket ∧ decode strayBracket = "è" ∧
    strayNamed.pool.text? 1 = some "è" ∧ strayNamed.pool.className? 2 = some "è" ∧
    (∃ m, strayNamed.method? "è" = some m ∧ m ∈ strayNamed.methods ∧ strayNamed.pool.HasLooseText m.name "è") := by
  have hnone : ∀ text, ¬LooseText text loneSurrogate := by
    intro text h
    have hread := LooseUnits.unitsOnto_eq h []
    rw [← h.decode_eq] at hread
    revert hread
    decide +kernel
  have hstray : LooseText "è" strayBracket := .cons (.two (by decide) (by decide)) .nil
  obtain ⟨-, hshown, -, -⟩ := unreadable_bytes_show loneSurrogate
  obtain ⟨-, -, hread, hnames⟩ := unreadable_bytes_show strayBracket
  obtain ⟨htext, hclass, hmethod⟩ := hnames strayNamed "è" (by decide)
  have hentry : strayNamed.pool.HasLooseText 1 "è" := ⟨strayBracket, by decide +kernel, hstray⟩
  have hfound : strayNamed.method? "è" = some ⟨9, 1, 1, 0, []⟩ := by decide +kernel
  exact ⟨hnone, hshown hnone, hstray, hread _ hstray, (htext 1).2 hentry,
    (hclass 2).2 ⟨1, by decide +kernel, hentry⟩, _, hfound, hmethod _ hfound⟩

/-- These bytes are not those of any text, and yet no U+FFFD is read of them. -/
theorem stray_byte_unnoticed :
    (∀ text, encode text ≠ strayBracket) ∧ replacement ∉ (decode strayBracket).toList ∧
      strayNamed.pool.text? 1 = some "è" := by
  refine ⟨?_, by decide +kernel, by decide +kernel⟩
  intro text h
  have hread : decode strayBracket = text := by rw [← h, decode_encode]
  subst hread
  revert h
  decide +kernel

end ModifiedUtf8

end KnightCode
