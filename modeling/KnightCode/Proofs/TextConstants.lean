import KnightCode.Proofs.Constants

/-!
# Text constants

The bytes of a text are those of its parts, one after the other. No byte is zero and none starts a form of four bytes.
Since a text is read back from its bytes, the index that a pool gives for a text leads back to this text.
-/

namespace KnightCode

namespace ModifiedUtf8

/-! ## The range of the bytes -/

theorem lead_of_two_range : ∀ n : Nat, n < 32 → n.toUInt8 ||| 0xC0 ≠ 0 ∧ n.toUInt8 ||| 0xC0 < 0xF0 := by decide

theorem lead_of_three_range : ∀ n : Nat, n < 16 → n.toUInt8 ||| 0xE0 ≠ 0 ∧ n.toUInt8 ||| 0xE0 < 0xF0 := by decide

theorem follow_range : ∀ n : Nat, n < 64 → n.toUInt8 ||| 0x80 ≠ 0 ∧ n.toUInt8 ||| 0x80 < 0xF0 := by decide

theorem mem_unitBytes {u : UInt16} {b : UInt8} (h : b ∈ unitBytes u) : b ≠ 0 ∧ b < 0xF0 := by
  have hu := u.toNat_lt
  unfold unitBytes at h
  rw [shiftRight_and_toUInt8, shiftRight_toUInt8, shiftRight_twelve_toUInt8, and_toUInt8] at h
  split at h
  · next hone =>
    obtain ⟨hlow, hhigh⟩ : 1 ≤ u.toNat ∧ u.toNat ≤ 127 := by simpa [UInt16.le_iff_toNat_le] using hone
    have hb : b.toNat = u.toNat := by
      rw [List.mem_singleton.1 h, UInt16.toNat_toUInt8]
      omega
    refine ⟨?_, ?_⟩
    · rintro rfl
      simp at hb
      omega
    · rw [UInt8.lt_iff_toNat_lt, hb]
      exact Nat.lt_of_le_of_lt hhigh (by decide)
  · split at h
    · next htwo =>
      have htwo : u.toNat ≤ 2047 := htwo
      simp only [List.mem_cons, List.not_mem_nil, or_false] at h
      rcases h with rfl | rfl
      · exact lead_of_two_range _ (by omega)
      · exact follow_range _ (by omega)
    · simp only [List.mem_cons, List.not_mem_nil, or_false] at h
      rcases h with rfl | rfl | rfl
      · exact lead_of_three_range _ (by omega)
      · exact follow_range _ (by omega)
      · exact follow_range _ (by omega)

theorem mem_encode {text : String} {b : UInt8} (h : b ∈ encode text) : b ≠ 0 ∧ b < 0xF0 := by
  rw [encode_eq] at h
  obtain ⟨u, -, hb⟩ := List.mem_flatMap.1 h
  exact mem_unitBytes hb

theorem encode_append (s t : String) : encode (s ++ t) = encode s ++ encode t := by
  unfold encode
  rw [String.toList_append, List.flatMap_append]

end ModifiedUtf8

/-! ## Texts in a pool -/

namespace ConstantPool

theorem get?_of_intern {pool later : ConstantPool} {c : Constant} {i : UInt16} (hsize : pool.size ≤ 65535)
    (h : intern c pool = .ok i later) : later.get? i = some c := by
  unfold intern at h
  split at h
  · next k hk =>
    cases h
    exact get?_of_position? hsize hk
  · split at h
    · cases h
    · next hroom =>
      cases h
      exact get?_push c (Nat.lt_of_not_ge hroom)

theorem isText_of_utf8 {pool later : ConstantPool} {text : String} {i : UInt16} (hsize : pool.size ≤ 65535)
    (h : utf8 text pool = .ok i later) : later.IsText i text := by
  unfold utf8 at h
  split at h
  · cases h
  · exact get?_of_intern hsize h

end ConstantPool

namespace ModifiedUtf8

/-- A text is read back from its bytes, which are none of zero and of those from `0xF0` upwards. The bytes of two texts
together are those of one text and the other, and they tell the texts apart. So a pool gives back the text at the index
that it has given for it. -/
theorem text_bytes_faithful (s t : String) :
    decode (encode s) = s ∧ (∀ b ∈ encode s, b ≠ 0 ∧ b < 0xF0) ∧ encode (s ++ t) = encode s ++ encode t ∧
      (encode s = encode t → s = t) ∧
      ∀ (pool later : ConstantPool) (i : UInt16), pool.size ≤ 65535 → ConstantPool.utf8 s pool = .ok i later →
        later.text? i = some s :=
  ⟨decode_encode s, fun _ => mem_encode, encode_append s t, encode_injective,
    fun _ _ _ hsize h => (ConstantPool.isText_of_utf8 hsize h).text?⟩

def borders : String :=
  String.ofList ([0, 1, 0x7F, 0x80, 0x7FF, 0x800, 0xD7FF, 0xE000, 0xFFFF, 0x10000, 0x10FFFF].map Char.ofNat)

theorem text_bytes_faithful_borders :
    decode (encode borders) = borders ∧ (0xEF ∈ encode borders ∧ (0xEF : UInt8) < 0xF0) ∧
      (encode (borders ++ borders) = encode borders ++ encode borders) ∧
      (encode borders ≠ encode (borders ++ "a")) ∧
      ∃ i later, ConstantPool.utf8 borders (ConstantPool.empty.append (.integer 7)) = .ok i later ∧
        later.text? i = some borders := by
  have hmem : 0xEF ∈ encode borders := by decide +kernel
  obtain ⟨hback, hrange, happend, -, hpool⟩ := text_bytes_faithful borders borders
  have hother := (text_bytes_faithful borders (borders ++ "a")).2.2.2.1
  have hne : borders ≠ borders ++ "a" := by decide +kernel
  obtain ⟨later, hrun⟩ : ∃ later, ConstantPool.utf8 borders (ConstantPool.empty.append (.integer 7)) = .ok 2 later :=
    exists_ok_of_run' (by decide +kernel)
  exact ⟨hback, ⟨hmem, (hrange _ hmem).2⟩, happend, fun h => hne (hother h), 2, later, hrun,
    hpool _ _ _ (by decide) hrun⟩

end ModifiedUtf8

end KnightCode
