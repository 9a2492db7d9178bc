import KnightCode.Bytes

/-!
# Bytes read back

What the byte functions write, the reading functions give back, and they leave the bytes after it alone. Every codec of
the library rests on these laws.
-/

namespace KnightCode.Bytes

/-! ## Words -/

theorem join_bits16 (x : BitVec 16) (i : Nat) (hi : i < 16) :
    (((x >>> 8).setWidth 8).setWidth 16 <<< 8 ||| (x.setWidth 8).setWidth 16)[i] = x[i] := by
  simp only [BitVec.getElem_or, BitVec.getElem_setWidth, BitVec.getElem_shiftLeft, BitVec.getLsbD_setWidth,
    BitVec.getLsbD_ushiftRight]
  grind

theorem join_bits32 (x : BitVec 32) (i : Nat) (hi : i < 32) :
    (((x >>> 24).setWidth 8).setWidth 32 <<< 24 ||| ((x >>> 16).setWidth 8).setWidth 32 <<< 16 |||
      ((x >>> 8).setWidth 8).setWidth 32 <<< 8 ||| (x.setWidth 8).setWidth 32)[i] = x[i] := by
  simp only [BitVec.getElem_or, BitVec.getElem_setWidth, BitVec.getElem_shiftLeft, BitVec.getLsbD_setWidth,
    BitVec.getLsbD_ushiftRight]
  grind

@[simp] theorem readUInt16_ofUInt16 (n : UInt16) (rest : Bytes) :
    readUInt16 (ofUInt16 n ++ rest) = some (n, rest) := by
  have joined : (n >>> 8).toUInt8.toUInt16 <<< 8 ||| n.toUInt8.toUInt16 = n := by
    apply UInt16.toBitVec_inj.1
    ext i hi
    exact join_bits16 n.toBitVec i hi
  simp only [ofUInt16, List.cons_append, List.nil_append, readUInt16, joined]

@[simp] theorem readUInt32_ofUInt32 (n : UInt32) (rest : Bytes) :
    readUInt32 (ofUInt32 n ++ rest) = some (n, rest) := by
  have joined : (n >>> 24).toUInt8.toUInt32 <<< 24 ||| (n >>> 16).toUInt8.toUInt32 <<< 16 |||
      (n >>> 8).toUInt8.toUInt32 <<< 8 ||| n.toUInt8.toUInt32 = n := by
    apply UInt32.toBitVec_inj.1
    ext i hi
    exact join_bits32 n.toBitVec i hi
  simp only [ofUInt32, List.cons_append, List.nil_append, readUInt32, joined]

theorem ofUInt16_append_inj {m n : UInt16} {front rest : Bytes} :
    ofUInt16 m ++ front = ofUInt16 n ++ rest ↔ m = n ∧ front = rest := by
  constructor
  · intro h
    have := congrArg readUInt16 h
    simpa using this
  · rintro ⟨rfl, rfl⟩
    rfl

theorem ofUInt16_inj {m n : UInt16} : ofUInt16 m = ofUInt16 n ↔ m = n := by
  have := @ofUInt16_append_inj m n [] []
  simpa using this

theorem ofUInt32_inj {m n : UInt32} : ofUInt32 m = ofUInt32 n ↔ m = n := by
  constructor
  · intro h
    have := congrArg (fun bytes => readUInt32 (bytes ++ [])) h
    simp only [readUInt32_ofUInt32, Option.some.injEq, Prod.mk.injEq] at this
    exact this.1
  · rintro rfl
    rfl

theorem split_bits16 (a b : BitVec 8) (i : Nat) (hi : i < 8) :
    (((a.setWidth 16 <<< 8 ||| b.setWidth 16) >>> 8).setWidth 8)[i] = a[i] ∧
      ((a.setWidth 16 <<< 8 ||| b.setWidth 16).setWidth 8)[i] = b[i] := by
  simp only [BitVec.getElem_setWidth, BitVec.getLsbD_ushiftRight, BitVec.getLsbD_or, BitVec.getLsbD_shiftLeft,
    BitVec.getLsbD_setWidth]
  grind

theorem split_bits32 (u v w z : BitVec 8) (i : Nat) (hi : i < 8) :
    let x := u.setWidth 32 <<< 24 ||| v.setWidth 32 <<< 16 ||| w.setWidth 32 <<< 8 ||| z.setWidth 32
    ((x >>> 24).setWidth 8)[i] = u[i] ∧ ((x >>> 16).setWidth 8)[i] = v[i] ∧ ((x >>> 8).setWidth 8)[i] = w[i] ∧
      (x.setWidth 8)[i] = z[i] := by
  simp only [BitVec.getElem_setWidth, BitVec.getLsbD_ushiftRight, BitVec.getLsbD_or, BitVec.getLsbD_shiftLeft,
    BitVec.getLsbD_setWidth]
  grind

theorem ofUInt16_join (a b : UInt8) : ofUInt16 (a.toUInt16 <<< 8 ||| b.toUInt16) = [a, b] := by
  simp only [ofUInt16, List.cons.injEq, and_true]
  constructor <;> apply UInt8.toBitVec_inj.1 <;> ext i hi
  · exact (split_bits16 a.toBitVec b.toBitVec i hi).1
  · exact (split_bits16 a.toBitVec b.toBitVec i hi).2

theorem ofUInt32_join (a b c d : UInt8) :
    ofUInt32 (a.toUInt32 <<< 24 ||| b.toUInt32 <<< 16 ||| c.toUInt32 <<< 8 ||| d.toUInt32) = [a, b, c, d] := by
  have bits := split_bits32 a.toBitVec b.toBitVec c.toBitVec d.toBitVec
  simp only [ofUInt32, List.cons.injEq, and_true]
  refine ⟨?_, ?_, ?_, ?_⟩ <;> apply UInt8.toBitVec_inj.1 <;> ext i hi
  · exact (bits i hi).1
  · exact (bits i hi).2.1
  · exact (bits i hi).2.2.1
  · exact (bits i hi).2.2.2

theorem readUInt16_eq_some_iff {input rest : Bytes} {n : UInt16} :
    readUInt16 input = some (n, rest) ↔ input = ofUInt16 n ++ rest := by
  constructor
  · intro h
    match input, h with
    | a :: b :: tail, h =>
      cases h
      simp [ofUInt16_join]
  · rintro rfl
    exact readUInt16_ofUInt16 n rest

theorem readUInt32_eq_some_iff {input rest : Bytes} {n : UInt32} :
    readUInt32 input = some (n, rest) ↔ input = ofUInt32 n ++ rest := by
  constructor
  · intro h
    match input, h with
    | a :: b :: c :: d :: tail, h =>
      cases h
      simp [ofUInt32_join]
  · rintro rfl
    exact readUInt32_ofUInt32 n rest

/-! ## Runs -/

theorem readExactly_eq_some_iff {n : Nat} {input front rest : Bytes} :
    readExactly n input = some (front, rest) ↔ front.length = n ∧ input = front ++ rest := by
  constructor
  · intro h
    simp only [readExactly] at h
    split at h
    · next hlength =>
      cases h
      exact ⟨hlength, (List.take_append_drop n input).symm⟩
    · cases h
  · rintro ⟨rfl, rfl⟩
    exact readExactly_append front rest

theorem readExactly_of_length {n : Nat} {front : Bytes} (h : front.length = n) (rest : Bytes) :
    readExactly n (front ++ rest) = some (front, rest) := by
  subst h
  exact readExactly_append front rest

variable {α : Type} {read : Bytes → Option (α × Bytes)} {bytes : α → Bytes}

theorem readManyOnto_flatMap (l : List α) (h : ∀ a ∈ l, ∀ rest, read (bytes a ++ rest) = some (a, rest))
    (acc : List α) (rest : Bytes) :
    readManyOnto read l.length acc (l.flatMap bytes ++ rest) = some (acc.reverse ++ l, rest) := by
  induction l generalizing acc with
  | nil => simp [readManyOnto]
  | cons a l ih =>
    rw [List.flatMap_cons, List.append_assoc, List.length_cons, readManyOnto, h a (by simp)]
    simp only
    rw [ih (fun b hb => h b (by simp [hb])) (a :: acc)]
    simp

theorem readMany_flatMap {n : Nat} {l : List α} (hn : l.length = n)
    (h : ∀ a ∈ l, ∀ rest, read (bytes a ++ rest) = some (a, rest)) (rest : Bytes) :
    readMany read n (l.flatMap bytes ++ rest) = some (l, rest) := by
  subst hn
  exact readManyOnto_flatMap l h [] rest

theorem of_readManyOnto {Stored : α → Prop}
    (h : ∀ input a rest, read input = some (a, rest) → Stored a ∧ input = bytes a ++ rest) {n : Nat} {acc l : List α}
    {input rest : Bytes} (hread : readManyOnto read n acc input = some (l, rest)) :
    ∃ items, l = acc.reverse ++ items ∧ items.length = n ∧ (∀ a ∈ items, Stored a) ∧
      input = items.flatMap bytes ++ rest := by
  -- On the number of items, with those that were read before in reverse.
  induction n generalizing acc input with
  | zero =>
    cases hread
    exact ⟨[], by simp, rfl, nofun, rfl⟩
  | succ n ih =>
    rw [readManyOnto] at hread
    split at hread
    · next a tail hfirst =>
      obtain ⟨hstored, rfl⟩ := h _ a tail hfirst
      obtain ⟨items, rfl, rfl, hall, rfl⟩ := ih hread
      exact ⟨a :: items, by simp, rfl, by simpa using ⟨hstored, hall⟩, by simp⟩
    · cases hread

theorem readMany_eq_some_iff {Stored : α → Prop}
    (h : ∀ input a rest, read input = some (a, rest) ↔ Stored a ∧ input = bytes a ++ rest) {n : Nat} {l : List α}
    {input rest : Bytes} :
    readMany read n input = some (l, rest) ↔
      l.length = n ∧ (∀ a ∈ l, Stored a) ∧ input = l.flatMap bytes ++ rest := by
  constructor
  · intro hread
    obtain ⟨items, rfl, hitems⟩ := of_readManyOnto (fun input a rest => (h input a rest).1) hread
    exact hitems
  · rintro ⟨hlength, hall, rfl⟩
    exact readMany_flatMap hlength (fun a ha rest => (h _ a rest).2 ⟨hall a ha, rfl⟩) rest

end KnightCode.Bytes
