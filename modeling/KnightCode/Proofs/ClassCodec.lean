import KnightCode.Proofs.Storage
import KnightCode.Proofs.Work

/-!
# Class files are read from their own bytes only

Each reader accepts the bytes of a value that can be stored, whatever follows them, and nothing else. So a class file
and its bytes determine each other, and the bytes of a class file cannot be cut short.
-/

namespace KnightCode

open Bytes

theorem Attribute.read_eq_some_iff {input rest : Bytes} {a : Attribute} :
    Attribute.read input = some (a, rest) ↔ a.Stored ∧ input = a.bytes ++ rest := by
  constructor
  · intro h
    simp only [Attribute.read, Option.bind_eq_bind, Option.bind_eq_some_iff, Prod.exists, readUInt16_eq_some_iff,
      readUInt32_eq_some_iff, readExactly_eq_some_iff, Option.pure_def, Option.some.injEq, Prod.mk.injEq] at h
    obtain ⟨name, _, rfl, length, _, rfl, info, _, ⟨hlength, rfl⟩, rfl, rfl⟩ := h
    exact ⟨hlength.symm, by simp [Attribute.bytes]⟩
  · rintro ⟨h, rfl⟩
    exact Attribute.read_bytes h rest

theorem Member.read_eq_some_iff {input rest : Bytes} {m : Member} :
    Member.read input = some (m, rest) ↔ m.Stored ∧ input = m.bytes ++ rest := by
  constructor
  · intro h
    simp only [Member.read, Option.bind_eq_bind, Option.bind_eq_some_iff, Prod.exists, readUInt16_eq_some_iff,
      readMany_eq_some_iff fun _ _ _ => Attribute.read_eq_some_iff, Option.pure_def, Option.some.injEq,
      Prod.mk.injEq] at h
    obtain ⟨access, _, rfl, name, _, rfl, descriptor, _, rfl, count, _, rfl, attributes, _, ⟨hcount, hall, rfl⟩, rfl,
      rfl⟩ := h
    exact ⟨⟨hcount.symm, hall⟩, by simp [Member.bytes]⟩
  · rintro ⟨h, rfl⟩
    exact Member.read_bytes h rest

theorem Constant.of_readPair {make : UInt16 → UInt16 → Constant} {input rest : Bytes} {c : Constant}
    (h : Constant.readPair make input = some (c, rest)) :
    ∃ a b, c = make a b ∧ input = ofUInt16 a ++ (ofUInt16 b ++ rest) := by
  simp only [Constant.readPair, Option.bind_eq_bind, Option.bind_eq_some_iff, Prod.exists, readUInt16_eq_some_iff,
    Option.pure_def, Option.some.injEq, Prod.mk.injEq] at h
  obtain ⟨a, _, rfl, b, _, rfl, rfl, rfl⟩ := h
  exact ⟨a, b, rfl, rfl⟩

theorem Constant.read_eq_some_iff {input rest : Bytes} {c : Constant} :
    Constant.read input = some (c, rest) ↔ c.Stored ∧ input = c.bytes ++ rest := by
  constructor
  · intro h
    cases input with
    | nil => cases h
    | cons tag input =>
      simp only [Constant.read] at h
      split at h
      case h_1 htag =>
        obtain rfl : tag = 1 := UInt8.toNat_inj.1 htag
        simp only [Option.bind_eq_bind, Option.bind_eq_some_iff, Prod.exists, readUInt16_eq_some_iff,
          readExactly_eq_some_iff, Option.pure_def, Option.some.injEq, Prod.mk.injEq] at h
        obtain ⟨length, _, rfl, text, _, ⟨hlength, rfl⟩, rfl, rfl⟩ := h
        have hle := length.toNat_lt
        refine ⟨?_, ?_⟩
        · simp only [Constant.Stored]
          omega
        · simp [Constant.bytes, hlength]
      case h_2 htag =>
        obtain rfl : tag = 3 := UInt8.toNat_inj.1 htag
        simp only [Option.map_eq_some_iff, Prod.exists, readUInt32_eq_some_iff, Prod.mk.injEq] at h
        obtain ⟨value, _, rfl, rfl, rfl⟩ := h
        exact ⟨trivial, by simp [Constant.bytes]⟩
      case h_3 htag =>
        obtain rfl : tag = 7 := UInt8.toNat_inj.1 htag
        simp only [Option.map_eq_some_iff, Prod.exists, readUInt16_eq_some_iff, Prod.mk.injEq] at h
        obtain ⟨name, _, rfl, rfl, rfl⟩ := h
        exact ⟨trivial, by simp [Constant.bytes]⟩
      case h_4 htag =>
        obtain rfl : tag = 8 := UInt8.toNat_inj.1 htag
        simp only [Option.map_eq_some_iff, Prod.exists, readUInt16_eq_some_iff, Prod.mk.injEq] at h
        obtain ⟨text, _, rfl, rfl, rfl⟩ := h
        exact ⟨trivial, by simp [Constant.bytes]⟩
      case h_5 htag =>
        obtain rfl : tag = 9 := UInt8.toNat_inj.1 htag
        obtain ⟨a, b, rfl, rfl⟩ := Constant.of_readPair h
        exact ⟨trivial, by simp [Constant.bytes]⟩
      case h_6 htag =>
        obtain rfl : tag = 10 := UInt8.toNat_inj.1 htag
        obtain ⟨a, b, rfl, rfl⟩ := Constant.of_readPair h
        exact ⟨trivial, by simp [Constant.bytes]⟩
      case h_7 htag =>
        obtain rfl : tag = 12 := UInt8.toNat_inj.1 htag
        obtain ⟨a, b, rfl, rfl⟩ := Constant.of_readPair h
        exact ⟨trivial, by simp [Constant.bytes]⟩
      case h_8 => cases h
  · rintro ⟨h, rfl⟩
    exact Constant.read_bytes h rest

namespace ClassFile

theorem of_readConstantsOnto {n position : Nat} {acc l : List Constant} {input rest : Bytes}
    (h : readConstantsOnto position n acc input = .ok (l, rest)) :
    ∃ items, l = acc.reverse ++ items ∧ items.length = n ∧ (∀ c ∈ items, c.Stored) ∧
      input = items.flatMap Constant.bytes ++ rest := by
  induction n generalizing position acc input with
  | zero =>
    cases h
    exact ⟨[], by simp, rfl, nofun, rfl⟩
  | succ n ih =>
    rw [readConstantsOnto] at h
    split at h
    · next c tail hfirst =>
      obtain ⟨hstored, rfl⟩ := Constant.read_eq_some_iff.1 hfirst
      obtain ⟨items, rfl, rfl, hall, rfl⟩ := ih h
      exact ⟨c :: items, by simp, rfl, by simpa using ⟨hstored, hall⟩, by simp⟩
    · cases h

theorem of_readHeader {input rest : Bytes} {minor major sizeField : UInt16}
    (h : readHeader input = some ((minor, major, sizeField), rest)) :
    input = ofUInt16 minor ++ (ofUInt16 major ++ (ofUInt16 sizeField ++ rest)) := by
  simp only [readHeader, Option.bind_eq_bind, Option.bind_eq_some_iff, Prod.exists, readUInt16_eq_some_iff,
    Option.pure_def, Option.some.injEq, Prod.mk.injEq] at h
  obtain ⟨_, _, rfl, _, _, rfl, _, _, rfl, ⟨rfl, rfl, rfl⟩, rfl⟩ := h
  rfl

theorem orTruncated_eq_ok {α : Type} {result : Option α} {a : α} : orTruncated result = .ok a ↔ result = some a := by
  cases result <;> simp [orTruncated]

theorem of_readBody {minor major : UInt16} {pool : ConstantPool} {input rest : Bytes} {c : ClassFile}
    (h : readBody minor major pool input = some (c, rest))
    (hsize : pool.sizeField.toNat - 1 = pool.constants.entries.size)
    (hconstants : ∀ k ∈ pool.constants.entries.toList, k.Stored) :
    c.Counted ∧ c.minor = minor ∧ c.major = major ∧ c.pool = pool ∧ input = c.bodyBytes ++ rest := by
  have interfaces : ∀ input n rest, readUInt16 input = some (n, rest) ↔ True ∧ input = ofUInt16 n ++ rest := by
    simp [readUInt16_eq_some_iff]
  simp only [readBody, Option.bind_eq_bind, Option.bind_eq_some_iff, Prod.exists, readUInt16_eq_some_iff,
    readMany_eq_some_iff interfaces, readMany_eq_some_iff fun _ _ _ => Member.read_eq_some_iff,
    readMany_eq_some_iff fun _ _ _ => Attribute.read_eq_some_iff, Option.pure_def, Option.some.injEq,
    Prod.mk.injEq] at h
  obtain ⟨_, _, rfl, _, _, rfl, _, _, rfl, _, _, rfl, _, _, ⟨hinterfaces, -, rfl⟩, _, _, rfl, _, _,
    ⟨hfields, hallFields, rfl⟩, _, _, rfl, _, _, ⟨hmethods, hallMethods, rfl⟩, _, _, rfl, _, _,
    ⟨hattributes, hallAttributes, rfl⟩, rfl, rfl⟩ := h
  exact ⟨⟨hsize, hconstants, hinterfaces.symm, hfields.symm, hallFields, hmethods.symm, hallMethods, hattributes.symm,
    hallAttributes⟩, rfl, rfl, rfl, by simp [bodyBytes]⟩

/-- The reader accepts the bytes of a class whose counts it can go by, and nothing else. -/
theorem read_eq_ok_iff {input rest : Bytes} {c : ClassFile} :
    ClassFile.read input = .ok (c, rest) ↔ c.Counted ∧ input = c.bytes ++ rest := by
  constructor
  · intro h
    unfold ClassFile.read at h
    obtain ⟨⟨start, afterMagic⟩, hstart, hrest⟩ := except_bind_eq_ok.1 h
    clear h
    simp only at hrest
    split at hrest
    · cases hrest
    next hmagic =>
    obtain rfl : start = magic := by simpa using hmagic
    obtain ⟨⟨⟨minor, major, sizeField⟩, afterHeader⟩, hheader, htail⟩ := except_bind_eq_ok.1 hrest
    obtain ⟨⟨constants, afterConstants⟩, hread, hbody⟩ := except_bind_eq_ok.1 htail
    obtain ⟨-, rfl⟩ := readExactly_eq_some_iff.1 (orTruncated_eq_ok.1 hstart)
    obtain rfl := of_readHeader (orTruncated_eq_ok.1 hheader)
    obtain ⟨items, rfl, hcount, hstored, rfl⟩ := of_readConstantsOnto hread
    obtain ⟨hcounted, rfl, rfl, hpool, rfl⟩ := of_readBody (orTruncated_eq_ok.1 hbody)
      (by simpa [ConstantPool.ofList, Register.ofArray] using hcount.symm)
      (by simpa [ConstantPool.ofList, Register.ofArray] using hstored)
    refine ⟨hcounted, ?_⟩
    rw [bytes_eq, hpool]
    simp [ConstantPool.ofList, Register.ofArray]
  · rintro ⟨h, rfl⟩
    exact read_bytes h rest

theorem read_front_eq_error {c : ClassFile} (h : c.Counted) {front : Bytes} (hfront : front <+: c.bytes)
    (hshort : front ≠ c.bytes) : ∃ e, ClassFile.read front = .error e := by
  obtain ⟨tail, htail⟩ := hfront
  cases hread : ClassFile.read front with
  | error e => exact ⟨e, rfl⟩
  | ok result =>
    obtain ⟨d, rest⟩ := result
    obtain ⟨hd, rfl⟩ := read_eq_ok_iff.1 hread
    have hwhole : ClassFile.read (c.bytes ++ []) = .ok (d, rest ++ tail) := by
      rw [List.append_nil, ← htail, List.append_assoc]
      exact read_bytes hd (rest ++ tail)
    rw [read_bytes h []] at hwhole
    simp only [Except.ok.injEq, Prod.mk.injEq, List.nil_eq, List.append_eq_nil_iff] at hwhole
    obtain ⟨-, -, rfl⟩ := hwhole
    exact absurd (by simpa using htail) hshort

/-- A class whose counts are right is read back from its bytes, whatever follows them, and from no shorter front of
them. What is read from any bytes has its own bytes at their front. -/
theorem read_exact :
    (∀ c : ClassFile, c.Stored →
      (∀ rest, ClassFile.read (c.bytes ++ rest) = .ok (c, rest)) ∧
      ∀ front, front <+: c.bytes → front ≠ c.bytes → ∃ e, ClassFile.read front = .error e) ∧
    ∀ input c rest, ClassFile.read input = .ok (c, rest) → input = c.bytes ++ rest := by
  refine ⟨fun c stored => ⟨read_bytes stored.toCounted, fun front => read_front_eq_error stored.toCounted⟩, ?_⟩
  intro input c rest h
  exact (read_eq_ok_iff.1 h).2

/-- A class with a text that is no text, all access bits, a field with an attribute of its own and an interface. -/
def oddClass : ClassFile where
  minor := 3
  major := 52
  pool := .ofList [.utf8 [0xC0, 0xFF], .integer (-1), .nameAndType 1 7] 4
  access := 0xFFFF
  thisClass := 9
  superClass := 0
  interfacesCount := 1
  interfaces := [2]
  fieldsCount := 1
  fields := [⟨0xF00F, 1, 1, 1, [⟨1, 2, [0xCA, 0xFE]⟩]⟩]
  methodsCount := 0
  methods := []
  attributesCount := 1
  attributes := [⟨1, 0, []⟩]

theorem read_exact_oddClass :
    oddClass.Stored ∧ ClassFile.read (oddClass.bytes ++ [0xCA]) = .ok (oddClass, [0xCA]) ∧
      ∃ e, ClassFile.read oddClass.bytes.dropLast = .error e := by
  have stored : oddClass.Stored := by
    refine ⟨⟨rfl, ?_, rfl, rfl, ?_, rfl, nofun, rfl, ?_⟩, rfl⟩
    · simp [oddClass, ConstantPool.ofList, Register.ofArray, Constant.Stored]
    · intro m hm
      obtain rfl := List.mem_singleton.1 hm
      exact ⟨rfl, by simp [Attribute.Stored]⟩
    · simp [oddClass, Attribute.Stored]
  obtain ⟨hback, hcut⟩ := read_exact.1 oddClass stored
  exact ⟨stored, hback [0xCA], hcut _ (List.dropLast_prefix _) (by decide +kernel)⟩

end ClassFile

end KnightCode
