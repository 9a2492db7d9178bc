import KnightCode.Proofs.Constants

/-!
# Requests to a constant pool

Whatever a pool is asked for, in any order and however many of the requests fail, it stays one that can be stored: it
grows at its end only, each constant stands in it once and after the constants that it refers to. So an index stands for
one request, now and later.
-/

namespace KnightCode

namespace ConstantPool

inductive Request
  | utf8 (text : String)
  | integer (value : Int32)
  | classRef (name : String)
  | string (text : String)
  | nameAndType (name descriptor : String)
  | fieldRef (member : MemberRef)
  | methodRef (member : MemberRef)
  deriving DecidableEq

namespace Request

def ask : Request → Interning UInt16
  | .utf8 text => ConstantPool.utf8 text
  | .integer value => ConstantPool.integer value
  | .classRef name => ConstantPool.classRef name
  | .string text => ConstantPool.string text
  | .nameAndType name descriptor => ConstantPool.nameAndType name descriptor
  | .fieldRef m => ConstantPool.fieldRef m.owner m.name m.descriptor
  | .methodRef m => ConstantPool.methodRef m.owner m.name m.descriptor

def Leads : Request → ConstantPool → UInt16 → Prop
  | .utf8 text, pool, i => pool.IsText i text
  | .integer value, pool, i => pool.IsInteger i value
  | .classRef name, pool, i => pool.IsClass i name
  | .string text, pool, i => pool.IsString i text
  | .nameAndType name descriptor, pool, i => pool.IsNameAndType i name descriptor
  | .fieldRef m, pool, i => pool.IsField i m
  | .methodRef m, pool, i => pool.IsMethod i m

theorem ask_answers (r : Request) : Answers r.ask r.Leads := by
  cases r with
  | utf8 text => exact utf8_answers text
  | integer value => exact integer_answers value
  | classRef name => exact classRef_answers name
  | string text => exact string_answers text
  | nameAndType name descriptor => exact nameAndType_answers name descriptor
  | fieldRef m => exact fieldRef_answers m
  | methodRef m => exact methodRef_answers m

theorem Leads.mono {r : Request} {pool later : ConstantPool} {i : UInt16} (h : r.Leads pool i)
    (hext : pool.Extends later) : r.Leads later i := by
  cases r with
  | utf8 text => exact IsText.mono hext h
  | integer value => exact IsInteger.mono hext h
  | classRef name => exact IsClass.mono hext h
  | string text => exact IsString.mono hext h
  | nameAndType name descriptor => exact IsNameAndType.mono hext h
  | fieldRef m => exact IsField.mono hext h
  | methodRef m => exact IsMethod.mono hext h

end Request

/-- The request that an index stands for, with its texts read through the pool. -/
def resolve? (pool : ConstantPool) (i : UInt16) : Option Request :=
  match pool.get? i with
  | some (.utf8 _) => (pool.text? i).map .utf8
  | some (.integer value) => some (.integer value)
  | some (.classRef _) => (pool.className? i).map .classRef
  | some (.string text) => (pool.text? text).map .string
  | some (.nameAndType ..) => (pool.nameAndType? i).map fun (name, descriptor) => .nameAndType name descriptor
  | some (.fieldRef ..) => (pool.field? i).map .fieldRef
  | some (.methodRef ..) => (pool.method? i).map .methodRef
  | none => none

theorem Request.Leads.resolve? {r : Request} {pool : ConstantPool} {i : UInt16} (h : r.Leads pool i) :
    pool.resolve? i = some r := by
  unfold ConstantPool.resolve?
  cases r with
  | utf8 text =>
    have htext : pool.IsText i text := h
    rw [show pool.get? i = some (.utf8 (ModifiedUtf8.encode text)) from h]
    simp only [htext.text?, Option.map_some]
  | integer value => rw [show pool.get? i = some (.integer value) from h]
  | classRef name =>
    obtain ⟨n, hget, -⟩ := id h
    simp only [hget, IsClass.className? h, Option.map_some]
  | string text =>
    obtain ⟨n, hget, htext⟩ := h
    simp only [hget, htext.text?, Option.map_some]
  | nameAndType name descriptor =>
    obtain ⟨n, d, hget, -⟩ := id h
    simp only [hget, IsNameAndType.nameAndType? h, Option.map_some]
  | fieldRef m =>
    obtain ⟨o, n, hget, -⟩ := id h
    simp only [hget, IsField.field? h, Option.map_some]
  | methodRef m =>
    obtain ⟨o, n, hget, -⟩ := id h
    simp only [hget, IsMethod.method? h, Option.map_some]

/-! ## Asking again -/

section Again

variable {pool : ConstantPool} (h : pool.WellFormed) {i : UInt16}
include h

theorem intern_of_get? {c : Constant} (hi : pool.get? i = some c) : intern c pool = .ok i pool := by
  unfold intern
  cases hp : pool.constants.position? c.bytes with
  | none =>
    have hmem := List.mem_of_getElem? (get?_eq_some.1 hi).2
    exact absurd rfl (Register.position?_eq_none.1 hp c hmem)
  | some j =>
    obtain rfl := h.index_unique (get?_of_position? h.length_le hp) hi
    rfl

theorem utf8_of_isText {text : String} (hi : pool.IsText i text) : utf8 text pool = .ok i pool := by
  have hmem := List.mem_of_getElem? (get?_eq_some.1 hi).2
  have hshort : (ModifiedUtf8.encode text).length ≤ 65535 := h.supports _ hmem
  simp only [utf8, if_neg (Nat.not_lt.2 hshort)]
  exact intern_of_get? h hi

theorem classRef_of_isClass {name : String} (hi : pool.IsClass i name) : classRef name pool = .ok i pool := by
  obtain ⟨n, hget, hname⟩ := hi
  exact bind_eq_ok.2 ⟨n, pool, utf8_of_isText h hname, intern_of_get? h hget⟩

theorem nameAndType_of_isNameAndType {name descriptor : String} (hi : pool.IsNameAndType i name descriptor) :
    nameAndType name descriptor pool = .ok i pool := by
  obtain ⟨n, d, hget, hname, hdescriptor⟩ := hi
  refine bind_eq_ok.2 ⟨n, pool, utf8_of_isText h hname, ?_⟩
  exact bind_eq_ok.2 ⟨d, pool, utf8_of_isText h hdescriptor, intern_of_get? h hget⟩

theorem Request.ask_of_leads {r : Request} (hi : r.Leads pool i) : r.ask pool = .ok i pool := by
  cases r with
  | utf8 text => exact utf8_of_isText h hi
  | integer value => exact intern_of_get? h hi
  | classRef name => exact classRef_of_isClass h hi
  | string text =>
    obtain ⟨n, hget, htext⟩ := hi
    exact bind_eq_ok.2 ⟨n, pool, utf8_of_isText h htext, intern_of_get? h hget⟩
  | nameAndType name descriptor => exact nameAndType_of_isNameAndType h hi
  | fieldRef m =>
    obtain ⟨o, n, hget, howner, hmember⟩ := hi
    refine bind_eq_ok.2 ⟨o, pool, classRef_of_isClass h howner, ?_⟩
    exact bind_eq_ok.2 ⟨n, pool, nameAndType_of_isNameAndType h hmember, intern_of_get? h hget⟩
  | methodRef m =>
    obtain ⟨o, n, hget, howner, hmember⟩ := hi
    refine bind_eq_ok.2 ⟨o, pool, classRef_of_isClass h howner, ?_⟩
    exact bind_eq_ok.2 ⟨n, pool, nameAndType_of_isNameAndType h hmember, intern_of_get? h hget⟩

end Again

end ConstantPool

/-! ## The order of the constants -/

inductive Constant.Kind
  | utf8
  | integer
  | classRef
  | string
  | fieldRef
  | methodRef
  | nameAndType
  deriving DecidableEq

def Constant.kind : Constant → Kind
  | .utf8 _ => .utf8
  | .integer _ => .integer
  | .classRef _ => .classRef
  | .string _ => .string
  | .fieldRef .. => .fieldRef
  | .methodRef .. => .methodRef
  | .nameAndType .. => .nameAndType

/-- The indices in a constant, each with the kind of the constant that it must lead to. -/
def Constant.references : Constant → List (UInt16 × Kind)
  | .utf8 _ | .integer _ => []
  | .classRef text | .string text => [(text, .utf8)]
  | .nameAndType name descriptor => [(name, .utf8), (descriptor, .utf8)]
  | .fieldRef owner member | .methodRef owner member => [(owner, .classRef), (member, .nameAndType)]

namespace ConstantPool

/-- A pool that can be stored and in which a constant stands after those that it refers to. -/
structure Sound (pool : ConstantPool) : Prop extends WellFormed pool where
  earlier : ∀ i c, pool.get? i = some c → ∀ ref ∈ c.references,
    ref.1 < i ∧ ∃ d, pool.get? ref.1 = some d ∧ d.kind = ref.2

theorem sound_empty : empty.Sound :=
  ⟨wellFormed_empty, fun i c h => by simp [get?, empty, Register.empty] at h⟩

theorem Supports.references {pool : ConstantPool} {c : Constant} (h : pool.Supports c) :
    ∀ ref ∈ c.references, ∃ d, pool.get? ref.1 = some d ∧ d.kind = ref.2 := by
  have htext : ∀ i, (∃ t, pool.IsText i t) → ∃ d, pool.get? i = some d ∧ d.kind = .utf8 :=
    fun i ⟨t, ht⟩ => ⟨_, ht, rfl⟩
  have hclass : ∀ i, (∃ n, pool.IsClass i n) → ∃ d, pool.get? i = some d ∧ d.kind = .classRef :=
    fun i ⟨_, _, hget, _⟩ => ⟨_, hget, rfl⟩
  have hmember : ∀ i, (∃ n d, pool.IsNameAndType i n d) → ∃ d, pool.get? i = some d ∧ d.kind = .nameAndType :=
    fun i ⟨_, _, _, _, hget, _⟩ => ⟨_, hget, rfl⟩
  cases c with
  | utf8 bytes => nofun
  | integer value => nofun
  | classRef text => simpa [Constant.references] using htext text h
  | string text => simpa [Constant.references] using htext text h
  | nameAndType name descriptor => simpa [Constant.references] using ⟨htext name h.1, htext descriptor h.2⟩
  | fieldRef owner member => simpa [Constant.references] using ⟨hclass owner h.1, hmember member h.2⟩
  | methodRef owner member => simpa [Constant.references] using ⟨hclass owner h.1, hmember member h.2⟩

theorem lt_size_of_get? {pool : ConstantPool} {i : UInt16} {c : Constant} (h : pool.get? i = some c) :
    i.toNat ≤ pool.list.length := by
  obtain ⟨hlt, -⟩ := List.getElem?_eq_some_iff.1 (get?_eq_some.1 h).2
  omega

theorem get?_push_cases {pool : ConstantPool} {c d : Constant} {i : UInt16}
    (h : ((pool.append c).sync).get? i = some d) :
    pool.get? i = some d ∨ (i.toNat = pool.list.length + 1 ∧ d = c) := by
  obtain ⟨hi, hget⟩ := get?_eq_some.1 h
  have hi0 : i.toNat ≠ 0 := fun h => hi (UInt16.toNat_inj.1 h)
  rw [list_push] at hget
  by_cases hlt : i.toNat - 1 < pool.list.length
  · rw [List.getElem?_append_left hlt] at hget
    exact .inl (get?_eq_some.2 ⟨hi, hget⟩)
  · rw [List.getElem?_append_right (Nat.le_of_not_lt hlt), List.getElem?_singleton] at hget
    split at hget
    · cases hget
      exact .inr ⟨by omega, rfl⟩
    · cases hget

theorem sound_push {pool : ConstantPool} (h : pool.Sound) {c : Constant} (hc : pool.Supports c) (new : c ∉ pool.list)
    (room : pool.list.length + 1 < 65535) : ((pool.append c).sync).Sound := by
  refine ⟨wellFormed_push h.toWellFormed hc new room, ?_⟩
  intro i d hi ref href
  rcases get?_push_cases hi with hold | ⟨hlast, rfl⟩
  · obtain ⟨hlt, e, he, hkind⟩ := h.earlier i d hold ref href
    exact ⟨hlt, e, (pool.extends_push c).get? he, hkind⟩
  · obtain ⟨e, he, hkind⟩ := hc.references ref href
    have hle := lt_size_of_get? he
    exact ⟨UInt16.lt_iff_toNat_lt.2 (by omega), e, (pool.extends_push d).get? he, hkind⟩

/-! ## What a request leaves -/

/-- The pool only grows and stays sound, also when the request fails. -/
def Keeps (request : Interning UInt16) (pool : ConstantPool) : Prop :=
  pool.Extends (lastState (request pool)) ∧ (lastState (request pool)).Sound

theorem Keeps.of_ok {pool later : ConstantPool} {request : Interning UInt16} {i : UInt16} (h : Keeps request pool)
    (run : request pool = .ok i later) : pool.Extends later ∧ later.Sound := by
  rw [Keeps, run] at h
  exact h

theorem Keeps.bind {pool : ConstantPool} {first : Interning UInt16} {next : UInt16 → Interning UInt16}
    (h : Keeps first pool)
    (hnext : ∀ i later, first pool = .ok i later → later.Sound → Keeps (next i) later) :
    Keeps (first >>= next) pool := by
  unfold Keeps
  rw [lastState_bind]
  cases hrun : first pool with
  | error e later =>
    rw [Keeps, hrun] at h
    exact h
  | ok i later =>
    have hfirst := h.of_ok hrun
    obtain ⟨hext, hsound⟩ := hnext i later hrun hfirst.2
    exact ⟨hfirst.1.trans hext, hsound⟩

section Keeping

variable {pool : ConstantPool} (h : pool.Sound)
include h

theorem intern_keeps {c : Constant} (hc : pool.Supports c) : Keeps (intern c) pool := by
  unfold Keeps intern
  cases hp : pool.constants.position? c.bytes with
  | some i => exact ⟨.refl pool, h⟩
  | none =>
    have new : c ∉ pool.list := fun hmem => Register.position?_eq_none.1 hp c hmem rfl
    simp only
    split
    · exact ⟨.refl pool, h⟩
    · next hroom =>
      have room : pool.list.length + 1 < 65535 := Nat.lt_of_not_le hroom
      exact ⟨pool.extends_push c, sound_push h hc new room⟩

theorem utf8_keeps (text : String) : Keeps (utf8 text) pool := by
  unfold utf8
  simp only
  split
  · exact ⟨.refl pool, h⟩
  · next hshort => exact intern_keeps h (c := .utf8 (ModifiedUtf8.encode text)) (Nat.le_of_not_lt hshort)

theorem classRef_keeps (name : String) : Keeps (classRef name) pool := by
  refine (utf8_keeps h name).bind fun n later hrun hlater => ?_
  obtain ⟨-, -, hn⟩ := (utf8_answers name pool h.toWellFormed).of_ok hrun
  exact intern_keeps hlater (c := .classRef n) ⟨name, hn⟩

theorem string_keeps (text : String) : Keeps (string text) pool := by
  refine (utf8_keeps h text).bind fun n later hrun hlater => ?_
  obtain ⟨-, -, hn⟩ := (utf8_answers text pool h.toWellFormed).of_ok hrun
  exact intern_keeps hlater (c := .string n) ⟨text, hn⟩

theorem nameAndType_keeps (name descriptor : String) : Keeps (nameAndType name descriptor) pool := by
  refine (utf8_keeps h name).bind fun n mid hrun hmid => ?_
  obtain ⟨-, -, hn⟩ := (utf8_answers name pool h.toWellFormed).of_ok hrun
  refine (utf8_keeps hmid descriptor).bind fun d later hrun hlater => ?_
  obtain ⟨hext, -, hd⟩ := (utf8_answers descriptor mid hmid.toWellFormed).of_ok hrun
  exact intern_keeps hlater (c := .nameAndType n d) ⟨⟨name, hn.mono hext⟩, descriptor, hd⟩

theorem member_keeps (m : MemberRef) (make : UInt16 → UInt16 → Constant)
    (hmake : ∀ (pool : ConstantPool) o n, pool.IsClass o m.owner → pool.IsNameAndType n m.name m.descriptor →
      pool.Supports (make o n)) :
    Keeps (do
      let owner ← classRef m.owner
      let member ← nameAndType m.name m.descriptor
      intern (make owner member)) pool := by
  refine (classRef_keeps h m.owner).bind fun o mid hrun hmid => ?_
  obtain ⟨-, -, ho⟩ := (classRef_answers m.owner pool h.toWellFormed).of_ok hrun
  refine (nameAndType_keeps hmid m.name m.descriptor).bind fun n later hrun hlater => ?_
  obtain ⟨hext, -, hn⟩ := (nameAndType_answers m.name m.descriptor mid hmid.toWellFormed).of_ok hrun
  exact intern_keeps hlater (hmake later o n (ho.mono hext) hn)

theorem Request.ask_keeps (r : Request) : Keeps r.ask pool := by
  cases r with
  | utf8 text => exact utf8_keeps h text
  | integer value => exact intern_keeps h (c := .integer value) trivial
  | classRef name => exact classRef_keeps h name
  | string text => exact string_keeps h text
  | nameAndType name descriptor => exact nameAndType_keeps h name descriptor
  | fieldRef m => exact member_keeps h m .fieldRef fun _ _ _ ho hn => ⟨⟨_, ho⟩, _, _, hn⟩
  | methodRef m => exact member_keeps h m .methodRef fun _ _ _ ho hn => ⟨⟨_, ho⟩, _, _, hn⟩

end Keeping

/-! ## Any requests -/

def after (pool : ConstantPool) (requests : List Request) : ConstantPool :=
  requests.foldl (fun pool r => lastState (r.ask pool)) pool

theorem after_keeps {pool : ConstantPool} (h : pool.Sound) (requests : List Request) :
    pool.Extends (pool.after requests) ∧ (pool.after requests).Sound := by
  induction requests generalizing pool with
  | nil => exact ⟨.refl pool, h⟩
  | cons r requests ih =>
    obtain ⟨hext, hsound⟩ := r.ask_keeps h
    obtain ⟨hext', hsound'⟩ := ih hsound
    exact ⟨hext.trans hext', hsound'⟩

theorem sound_make {major : UInt16} {name superName : String} {c : ClassFile}
    (h : ClassFile.make major name superName = .ok c) : c.pool.Sound := by
  unfold ClassFile.make at h
  simp only at h
  split at h
  · next thisClass superClass pool run =>
    cases h
    obtain ⟨_, first, hthis, hrest⟩ := bind_eq_ok.1 run
    obtain ⟨_, second, hsuper, hpure⟩ := bind_eq_ok.1 hrest
    cases hpure
    have hfirst := (classRef_keeps sound_empty name).of_ok hthis
    exact ((classRef_keeps hfirst.2 superName).of_ok hsuper).2
  · cases h

/-- After any requests the pool of a new class is sound, and one more request only adds to it. An index that a request
gave stands for this request from then on: the same request gives it again and adds nothing, and no other request gives
it. -/
theorem request_index_stable {major : UInt16} {name superName : String} {c : ClassFile}
    (hmake : ClassFile.make major name superName = .ok c) (before : List Request) :
    (c.pool.after before).Sound ∧
    (∀ r : Request, (c.pool.after before).Extends (lastState (r.ask (c.pool.after before)))) ∧
    ∀ (r : Request) (i : UInt16) (mid : ConstantPool), r.ask (c.pool.after before) = .ok i mid →
      ∀ between, (mid.after between).resolve? i = some r ∧
        r.ask (mid.after between) = .ok i (mid.after between) ∧
        ∀ (s : Request) (j : UInt16) (last : ConstantPool), s.ask (mid.after between) = .ok j last →
          (i = j ↔ r = s) := by
  have hsound := (after_keeps (sound_make hmake) before).2
  refine ⟨hsound, fun r => (r.ask_keeps hsound).1, ?_⟩
  intro r i mid hr between
  obtain ⟨-, -, hleads⟩ := (r.ask_answers _ hsound.toWellFormed).of_ok hr
  have hmid := (r.ask_keeps hsound).of_ok hr
  obtain ⟨hext, hlast⟩ := after_keeps hmid.2 between
  have hthere := hleads.mono hext
  have hagain := Request.ask_of_leads hlast.toWellFormed hthere
  refine ⟨hthere.resolve?, hagain, ?_⟩
  intro s j last hs
  constructor
  · rintro rfl
    obtain ⟨hext', -, hleads'⟩ := (s.ask_answers _ hlast.toWellFormed).of_ok hs
    exact Option.some.inj ((hthere.mono hext').resolve?.symm.trans hleads'.resolve?)
  · rintro rfl
    rw [hagain] at hs
    cases hs
    rfl

theorem request_index_stable_point : ∃ c i mid,
    ClassFile.make 52 "Point" "java/lang/Object" = .ok c ∧
    Request.ask (.fieldRef ⟨"Point", "x", "I"⟩) (c.pool.after [.string "I", .integer 7]) = .ok i mid ∧
    (mid.after [.methodRef ⟨"Point", "x", "I"⟩]).resolve? i = some (.fieldRef ⟨"Point", "x", "I"⟩) := by
  have hrun : (ClassFile.make 52 "Point" "java/lang/Object").toOption.bind (fun c =>
      (Request.ask (.fieldRef ⟨"Point", "x", "I"⟩)).run' (c.pool.after [.string "I", .integer 7])) = some 10 := by
    decide +kernel
  cases hmake : ClassFile.make 52 "Point" "java/lang/Object" with
  | error fault =>
    rw [hmake] at hrun
    cases hrun
  | ok c =>
    obtain ⟨-, -, hstable⟩ := request_index_stable hmake [.string "I", .integer 7]
    simp only [hmake, Except.toOption, Option.bind_some] at hrun
    delta EStateM.run' at hrun
    split at hrun
    · next i mid hask =>
      exact ⟨c, i, mid, rfl, hask, (hstable _ i mid hask [.methodRef ⟨"Point", "x", "I"⟩]).1⟩
    · cases hrun

end ConstantPool

end KnightCode
