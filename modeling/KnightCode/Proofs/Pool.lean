import KnightCode.Compile.Body
import KnightCode.Proofs.TextBytes
import KnightCode.Proofs.Words
import KnightCode.Proofs.Work

/-!
# Constant pools as they grow

A pool only grows at its end, each constant stands in it once, and an index that a request gives leads to what was asked
for, in the pool at that time and in every later one.
-/

namespace KnightCode

theorem Constant.bytes_injective {c d : Constant} (h : c.bytes = d.bytes) : c = d := by
  cases c <;> cases d <;>
    simp_all [Constant.bytes, Bytes.ofUInt16_append_inj, Bytes.ofUInt16_inj, Bytes.ofUInt32_inj]
  case integer.integer m n =>
    have := congrArg UInt32.toInt32 h
    simpa using this

theorem Register.position?_eq_some {κ α : Type} [Ord κ] [Std.TransOrd κ] [Std.LawfulEqOrd κ] {key : α → κ}
    {r : Register κ α key} {k : κ} {i : Nat} (h : r.position? k = some i) :
    ∃ a, r.entries.toList[i]? = some a ∧ key a = k := by
  rw [r.position?_eq] at h
  obtain ⟨hi, hkey, -⟩ := List.findIdx?_eq_some_iff_getElem.1 h
  exact ⟨_, List.getElem?_eq_getElem hi, by simpa using hkey⟩

theorem Register.position?_eq_none {κ α : Type} [Ord κ] [Std.TransOrd κ] [Std.LawfulEqOrd κ] {key : α → κ}
    {r : Register κ α key} {k : κ} : r.position? k = none ↔ ∀ a ∈ r.entries.toList, key a ≠ k := by
  rw [r.position?_eq]
  simp

namespace ConstantPool

/-- The constants, the one with index one first. -/
def list (pool : ConstantPool) : List Constant := pool.constants.entries.toList

def Extends (pool later : ConstantPool) : Prop := pool.list <+: later.list

theorem Extends.refl (pool : ConstantPool) : pool.Extends pool := List.prefix_refl _

theorem Extends.trans {a b c : ConstantPool} (hab : a.Extends b) (hbc : b.Extends c) : a.Extends c :=
  List.IsPrefix.trans hab hbc

theorem size_eq (pool : ConstantPool) : pool.size = pool.list.length := rfl

/-! ## Indices -/

theorem get?_eq_some {pool : ConstantPool} {i : UInt16} {c : Constant} :
    pool.get? i = some c ↔ i ≠ 0 ∧ pool.list[i.toNat - 1]? = some c := by
  unfold get? list
  split
  · next h => simp [h]
  · next h => simp [h]

theorem Extends.get? {pool later : ConstantPool} (h : pool.Extends later) {i : UInt16} {c : Constant}
    (hget : pool.get? i = some c) : later.get? i = some c := by
  rw [get?_eq_some] at hget ⊢
  obtain ⟨tail, htail⟩ := h
  obtain ⟨hi, -⟩ := List.getElem?_eq_some_iff.1 hget.2
  refine ⟨hget.1, ?_⟩
  rw [← htail, List.getElem?_append_left hi, hget.2]

/-! ## What an index leads to -/

def IsText (pool : ConstantPool) (i : UInt16) (text : String) : Prop :=
  pool.get? i = some (.utf8 (ModifiedUtf8.encode text))

def IsInteger (pool : ConstantPool) (i : UInt16) (value : Int32) : Prop := pool.get? i = some (.integer value)

def IsClass (pool : ConstantPool) (i : UInt16) (name : String) : Prop :=
  ∃ n, pool.get? i = some (.classRef n) ∧ pool.IsText n name

def IsString (pool : ConstantPool) (i : UInt16) (text : String) : Prop :=
  ∃ n, pool.get? i = some (.string n) ∧ pool.IsText n text

def IsNameAndType (pool : ConstantPool) (i : UInt16) (name descriptor : String) : Prop :=
  ∃ n d, pool.get? i = some (.nameAndType n d) ∧ pool.IsText n name ∧ pool.IsText d descriptor

def IsField (pool : ConstantPool) (i : UInt16) (m : MemberRef) : Prop :=
  ∃ o n, pool.get? i = some (.fieldRef o n) ∧ pool.IsClass o m.owner ∧ pool.IsNameAndType n m.name m.descriptor

def IsMethod (pool : ConstantPool) (i : UInt16) (m : MemberRef) : Prop :=
  ∃ o n, pool.get? i = some (.methodRef o n) ∧ pool.IsClass o m.owner ∧ pool.IsNameAndType n m.name m.descriptor

section Growing

variable {pool later : ConstantPool} (h : pool.Extends later) {i : UInt16}
include h

theorem IsText.mono {text : String} (hi : pool.IsText i text) : later.IsText i text := h.get? hi

theorem IsInteger.mono {value : Int32} (hi : pool.IsInteger i value) : later.IsInteger i value := h.get? hi

theorem IsClass.mono {name : String} (hi : pool.IsClass i name) : later.IsClass i name := by
  obtain ⟨n, hn, hname⟩ := hi
  exact ⟨n, h.get? hn, hname.mono h⟩

theorem IsString.mono {text : String} (hi : pool.IsString i text) : later.IsString i text := by
  obtain ⟨n, hn, htext⟩ := hi
  exact ⟨n, h.get? hn, htext.mono h⟩

theorem IsNameAndType.mono {name descriptor : String} (hi : pool.IsNameAndType i name descriptor) :
    later.IsNameAndType i name descriptor := by
  obtain ⟨n, d, hn, hname, hdescriptor⟩ := hi
  exact ⟨n, d, h.get? hn, hname.mono h, hdescriptor.mono h⟩

theorem IsField.mono {m : MemberRef} (hi : pool.IsField i m) : later.IsField i m := by
  obtain ⟨o, n, hn, howner, hmember⟩ := hi
  exact ⟨o, n, h.get? hn, howner.mono h, hmember.mono h⟩

theorem IsMethod.mono {m : MemberRef} (hi : pool.IsMethod i m) : later.IsMethod i m := by
  obtain ⟨o, n, hn, howner, hmember⟩ := hi
  exact ⟨o, n, h.get? hn, howner.mono h, hmember.mono h⟩

end Growing

/-! ## Pools that can be stored -/

/-- A text is not too long, and the indices in a constant lead to constants of the right kinds. -/
def Supports (pool : ConstantPool) : Constant → Prop
  | .utf8 bytes => bytes.length ≤ 65535
  | .integer _ => True
  | .classRef text | .string text => ∃ t, pool.IsText text t
  | .nameAndType name descriptor => (∃ t, pool.IsText name t) ∧ ∃ t, pool.IsText descriptor t
  | .fieldRef owner member | .methodRef owner member =>
    (∃ name, pool.IsClass owner name) ∧ ∃ name descriptor, pool.IsNameAndType member name descriptor

theorem Supports.mono {pool later : ConstantPool} (hext : pool.Extends later) {c : Constant} (h : pool.Supports c) :
    later.Supports c := by
  cases c with
  | utf8 bytes => exact h
  | integer value => exact h
  | classRef text => exact h.imp fun _ => .mono hext
  | string text => exact h.imp fun _ => .mono hext
  | nameAndType name descriptor => exact h.imp (.imp fun _ => .mono hext) (.imp fun _ => .mono hext)
  | fieldRef owner member => exact h.imp (.imp fun _ => .mono hext) (.imp fun _ => .imp fun _ => .mono hext)
  | methodRef owner member => exact h.imp (.imp fun _ => .mono hext) (.imp fun _ => .imp fun _ => .mono hext)

/-- A pool that can be stored: its size is right, each constant is there once, and so is what the constant needs. -/
structure WellFormed (pool : ConstantPool) : Prop where
  size_le : pool.list.length ≤ 65534
  sizeField_eq : pool.sizeField.toNat = pool.list.length + 1
  nodup : pool.list.Nodup
  supports : ∀ c ∈ pool.list, pool.Supports c

theorem wellFormed_empty : empty.WellFormed :=
  ⟨by simp [list, empty], by simp [list, empty], by simp [list, empty], by simp [list, empty]⟩

theorem WellFormed.length_le {pool : ConstantPool} (h : pool.WellFormed) : pool.list.length ≤ 65535 :=
  Nat.le_succ_of_le h.size_le

theorem WellFormed.index_unique {pool : ConstantPool} (h : pool.WellFormed) {i j : UInt16} {c : Constant}
    (hi : pool.get? i = some c) (hj : pool.get? j = some c) : i = j := by
  rw [get?_eq_some] at hi hj
  obtain ⟨hlt, -⟩ := List.getElem?_eq_some_iff.1 hi.2
  have heq := (List.getElem?_inj hlt h.nodup).1 (hi.2.trans hj.2.symm)
  have hi0 : i.toNat ≠ 0 := fun h => hi.1 (UInt16.toNat_inj.1 h)
  have hj0 : j.toNat ≠ 0 := fun h => hj.1 (UInt16.toNat_inj.1 h)
  apply UInt16.toNat_inj.1
  omega

/-! ## Asking for a constant -/

/-- What a request for a constant leaves: a larger pool in which the index leads to the constant. -/
def Gives (pool : ConstantPool) (leads : ConstantPool → UInt16 → Prop) (i : UInt16) (later : ConstantPool) : Prop :=
  pool.Extends later ∧ later.WellFormed ∧ leads later i

theorem get?_of_position? {pool : ConstantPool} (hsize : pool.list.length ≤ 65535) {c : Constant} {i : Nat}
    (hi : pool.constants.position? c.bytes = some i) : pool.get? (i + 1).toUInt16 = some c := by
  obtain ⟨d, hd, hbytes⟩ := Register.position?_eq_some hi
  obtain rfl := Constant.bytes_injective hbytes
  obtain ⟨hlt, -⟩ := List.getElem?_eq_some_iff.1 hd
  have hn : (i + 1).toUInt16.toNat = i + 1 := by
    rw [Nat.toUInt16_eq, UInt16.toNat_ofNat', Nat.mod_eq_of_lt]
    have : i < pool.list.length := hlt
    omega
  rw [get?_eq_some, hn]
  refine ⟨fun h => ?_, hd⟩
  rw [h] at hn
  cases hn

theorem list_push (pool : ConstantPool) (c : Constant) : ((pool.append c).sync).list = pool.list ++ [c] := by
  simp [list, append, sync]

theorem extends_push (pool : ConstantPool) (c : Constant) : pool.Extends (pool.append c).sync := by
  rw [Extends, list_push]
  exact List.prefix_append _ _

theorem wellFormed_push {pool : ConstantPool} (h : pool.WellFormed) {c : Constant} (hc : pool.Supports c)
    (new : c ∉ pool.list) (room : pool.list.length + 1 < 65535) : ((pool.append c).sync).WellFormed := by
  constructor
  · rw [list_push]
    simp
    omega
  · have hsize : (pool.append c).size = pool.list.length + 1 := by simp [size, append, Register.size, list]
    rw [list_push]
    simp only [sync, hsize, List.length_append, List.length_singleton, Nat.toUInt16_eq, UInt16.toNat_ofNat']
    omega
  · rw [list_push, List.nodup_append]
    refine ⟨h.nodup, by simp, ?_⟩
    rintro a ha b hb rfl
    obtain rfl := List.mem_singleton.1 hb
    exact new ha
  · intro d hd
    rw [list_push, List.mem_append, List.mem_singleton] at hd
    rcases hd with hd | rfl
    · exact (h.supports d hd).mono (pool.extends_push c)
    · exact hc.mono (pool.extends_push d)

theorem get?_push {pool : ConstantPool} (c : Constant) (room : pool.list.length + 1 < 65535) :
    ((pool.append c).sync).get? ((pool.append c).sync).size.toUInt16 = some c := by
  have hsize : ((pool.append c).sync).size = pool.list.length + 1 := by rw [size_eq, list_push]; simp
  have hn : ((pool.append c).sync).size.toUInt16.toNat = pool.list.length + 1 := by
    rw [hsize, Nat.toUInt16_eq, UInt16.toNat_ofNat', Nat.mod_eq_of_lt (by omega)]
  rw [get?_eq_some, hn, list_push]
  refine ⟨fun h => ?_, by simp⟩
  rw [h] at hn
  cases hn

theorem intern_yields {pool : ConstantPool} (h : pool.WellFormed) {c : Constant} (hc : pool.Supports c) :
    Yields (intern c) pool (pool.Gives fun later i => later.get? i = some c) (· = .full) := by
  unfold Yields intern
  cases hi : pool.constants.position? c.bytes with
  | some i => exact ⟨.refl pool, h, get?_of_position? h.length_le hi⟩
  | none =>
    have new : c ∉ pool.list := fun hc => Register.position?_eq_none.1 hi c hc rfl
    by_cases full : pool.size + 1 ≥ 65535
    · simp only [if_pos full]
    · have room : pool.list.length + 1 < 65535 := by rw [size_eq] at full; omega
      simp only [if_neg full]
      exact ⟨pool.extends_push c, wellFormed_push h hc new room, get?_push c room⟩

theorem IsClass.unique {pool : ConstantPool} (h : pool.WellFormed) {i j : UInt16} {name : String}
    (hi : pool.IsClass i name) (hj : pool.IsClass j name) : i = j := by
  obtain ⟨n, hn, hname⟩ := hi
  obtain ⟨m, hm, hname'⟩ := hj
  obtain rfl := h.index_unique hname hname'
  exact h.index_unique hn hm

/-! ## Requests

Each request gives an index that leads to what was asked for, or fails because the pool is full or a text is too long.
-/

def Genuine : PoolError → Prop
  | .full => True
  | .textTooLong length => 65535 < length

def Answers (request : Interning UInt16) (leads : ConstantPool → UInt16 → Prop) : Prop :=
  ∀ pool : ConstantPool, pool.WellFormed → Yields request pool (pool.Gives leads) Genuine

theorem intern_genuine {pool : ConstantPool} (h : pool.WellFormed) {c : Constant} (hc : pool.Supports c) :
    Yields (intern c) pool (pool.Gives fun later i => later.get? i = some c) Genuine :=
  (intern_yields h hc).mono (fun _ _ => id) fun e he => by subst he; trivial

theorem Answers.bind {first : Interning UInt16} {leads : ConstantPool → UInt16 → Prop}
    {next : UInt16 → Interning UInt16} {leads' : ConstantPool → UInt16 → Prop} (h : Answers first leads)
    (hnext : ∀ n pool, pool.WellFormed → leads pool n → Yields (next n) pool (pool.Gives leads') Genuine) :
    Answers (first >>= next) leads' := by
  intro pool hpool
  refine (h pool hpool).bind ?_
  rintro n later ⟨hext, hwf, hleads⟩
  refine (hnext n later hwf hleads).imp ?_
  rintro i last ⟨hext', hwf', hi⟩
  exact ⟨hext.trans hext', hwf', hi⟩

theorem utf8_answers (text : String) : Answers (utf8 text) (IsText · · text) := by
  intro pool hpool
  unfold utf8
  by_cases long : (ModifiedUtf8.encode text).length > 65535
  · simp only [if_pos long]
    exact Yields.of_throw long
  · simp only [if_neg long]
    exact intern_genuine (c := .utf8 (ModifiedUtf8.encode text)) hpool (Nat.le_of_not_lt long)

theorem integer_answers (value : Int32) : Answers (integer value) (IsInteger · · value) :=
  fun _ hpool => intern_genuine (c := .integer value) hpool trivial

theorem classRef_answers (name : String) : Answers (classRef name) (IsClass · · name) := by
  refine (utf8_answers name).bind fun n pool hpool hn => ?_
  refine (intern_genuine (c := .classRef n) hpool ⟨name, hn⟩).imp ?_
  rintro i later ⟨hext, hwf, hi⟩
  exact ⟨hext, hwf, n, hi, hn.mono hext⟩

theorem string_answers (text : String) : Answers (string text) (IsString · · text) := by
  refine (utf8_answers text).bind fun n pool hpool hn => ?_
  refine (intern_genuine (c := .string n) hpool ⟨text, hn⟩).imp ?_
  rintro i later ⟨hext, hwf, hi⟩
  exact ⟨hext, hwf, n, hi, hn.mono hext⟩

theorem nameAndType_answers (name descriptor : String) :
    Answers (nameAndType name descriptor) (IsNameAndType · · name descriptor) := by
  refine (utf8_answers name).bind fun n pool hpool hn => ?_
  refine (utf8_answers descriptor pool hpool).bind ?_
  rintro d later ⟨hext, hwf, hd⟩
  refine (intern_genuine (c := .nameAndType n d) hwf ⟨⟨name, hn.mono hext⟩, descriptor, hd⟩).imp ?_
  rintro i last ⟨hext', hwf', hi⟩
  exact ⟨hext.trans hext', hwf', n, d, hi, hn.mono (hext.trans hext'), hd.mono hext'⟩

theorem member_answers (m : MemberRef) (make : UInt16 → UInt16 → Constant) {leads : ConstantPool → UInt16 → Prop}
    (hmake : ∀ (pool : ConstantPool) o n, pool.IsClass o m.owner → pool.IsNameAndType n m.name m.descriptor →
      pool.Supports (make o n))
    (hleads : ∀ (pool : ConstantPool) i o n, pool.get? i = some (make o n) → pool.IsClass o m.owner →
      pool.IsNameAndType n m.name m.descriptor → leads pool i) :
    Answers (do
      let owner ← classRef m.owner
      let member ← nameAndType m.name m.descriptor
      intern (make owner member)) leads := by
  refine (classRef_answers m.owner).bind fun o pool hpool ho => ?_
  refine (nameAndType_answers m.name m.descriptor pool hpool).bind ?_
  rintro n later ⟨hext, hwf, hn⟩
  refine (intern_genuine hwf (hmake later o n (ho.mono hext) hn)).imp ?_
  rintro i last ⟨hext', hwf', hi⟩
  exact ⟨hext.trans hext', hwf', hleads last i o n hi (ho.mono (hext.trans hext')) (hn.mono hext')⟩

theorem fieldRef_answers (m : MemberRef) : Answers (fieldRef m.owner m.name m.descriptor) (IsField · · m) :=
  member_answers m .fieldRef (fun _ _ _ ho hn => ⟨⟨_, ho⟩, _, _, hn⟩) fun _ _ o n hi ho hn => ⟨o, n, hi, ho, hn⟩

theorem methodRef_answers (m : MemberRef) : Answers (methodRef m.owner m.name m.descriptor) (IsMethod · · m) :=
  member_answers m .methodRef (fun _ _ _ ho hn => ⟨⟨_, ho⟩, _, _, hn⟩) fun _ _ o n hi ho hn => ⟨o, n, hi, ho, hn⟩

end ConstantPool

end KnightCode
