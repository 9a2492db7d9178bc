import KnightCode.Proofs.Requests
import Mathlib.Combinatorics.Enumerative.DoubleCounting

/-!
# Pools with fewer constants

A pool is within another one if whatever stands in it also stands in the other, at whatever indices. It has no more
constants then. So a request for what the other pool has finds room, and leaves a pool that is still within the other.
-/

namespace KnightCode

namespace ConstantPool

variable {pool later small large : ConstantPool} {i j : UInt16} {c d : Constant} {r : Request}

/-! ## Constants and requests -/

theorem exists_get? (h : c ∈ pool.list) (wf : pool.WellFormed) : ∃ i, pool.get? i = some c := by
  obtain ⟨k, hk⟩ := List.getElem?_of_mem h
  obtain ⟨hlt, -⟩ := List.getElem?_eq_some_iff.1 hk
  have hsize := wf.size_le
  have hn : (k + 1).toUInt16.toNat = k + 1 := Nat.mod_eq_of_lt (by omega)
  refine ⟨(k + 1).toUInt16, get?_eq_some.2 ⟨fun h => ?_, by rw [hn]; exact hk⟩⟩
  rw [h] at hn
  cases hn

theorem mem_of_get? (h : pool.get? i = some c) : c ∈ pool.list := List.mem_of_getElem? (get?_eq_some.1 h).2

theorem exists_request (wf : pool.WellFormed) (h : pool.get? i = some c) :
    (∃ bytes, c = .utf8 bytes) ∨ ∃ r : Request, r.Leads pool i := by
  have hsupports := wf.supports c (mem_of_get? h)
  cases c with
  | utf8 bytes => exact .inl ⟨bytes, rfl⟩
  | integer value => exact .inr ⟨.integer value, h⟩
  | classRef n =>
    obtain ⟨name, hname⟩ := hsupports
    exact .inr ⟨.classRef name, n, h, hname⟩
  | string n =>
    obtain ⟨text, htext⟩ := hsupports
    exact .inr ⟨.string text, n, h, htext⟩
  | nameAndType n d =>
    obtain ⟨⟨name, hname⟩, descriptor, hdescriptor⟩ := hsupports
    exact .inr ⟨.nameAndType name descriptor, n, d, h, hname, hdescriptor⟩
  | fieldRef o n =>
    obtain ⟨⟨owner, howner⟩, name, descriptor, hmember⟩ := hsupports
    exact .inr ⟨.fieldRef ⟨owner, name, descriptor⟩, o, n, h, howner, hmember⟩
  | methodRef o n =>
    obtain ⟨⟨owner, howner⟩, name, descriptor, hmember⟩ := hsupports
    exact .inr ⟨.methodRef ⟨owner, name, descriptor⟩, o, n, h, howner, hmember⟩

theorem Request.Leads.exists_get? (h : r.Leads pool i) : ∃ c, pool.get? i = some c := by
  cases r with
  | utf8 text => exact ⟨_, h⟩
  | integer value => exact ⟨_, h⟩
  | classRef name => obtain ⟨n, hget, -⟩ := h; exact ⟨_, hget⟩
  | string text => obtain ⟨n, hget, -⟩ := h; exact ⟨_, hget⟩
  | nameAndType name descriptor => obtain ⟨n, d, hget, -⟩ := h; exact ⟨_, hget⟩
  | fieldRef m => obtain ⟨o, n, hget, -⟩ := h; exact ⟨_, hget⟩
  | methodRef m => obtain ⟨o, n, hget, -⟩ := h; exact ⟨_, hget⟩

theorem Request.Leads.unique (wf : pool.WellFormed) (hi : r.Leads pool i) (hj : r.Leads pool j) : i = j := by
  have hask := ask_of_leads wf hi
  rw [ask_of_leads wf hj] at hask
  cases hask
  rfl

theorem Request.Leads.eq {r s : Request} (hr : r.Leads pool i) (hs : s.Leads pool i) : r = s :=
  Option.some.inj (hr.resolve?.symm.trans hs.resolve?)

theorem Request.Leads.eq_utf8 {bytes : Bytes} (h : r.Leads pool i) (hget : pool.get? i = some (.utf8 bytes)) :
    ∃ text, r = .utf8 text ∧ bytes = ModifiedUtf8.encode text := by
  cases r with
  | utf8 text =>
    have heq : some (Constant.utf8 bytes) = some (.utf8 (ModifiedUtf8.encode text)) := hget.symm.trans h
    cases heq
    exact ⟨text, rfl, rfl⟩
  | integer value => cases hget.symm.trans h
  | classRef name => obtain ⟨n, h, -⟩ := h; cases hget.symm.trans h
  | string text => obtain ⟨n, h, -⟩ := h; cases hget.symm.trans h
  | nameAndType name descriptor => obtain ⟨n, d, h, -⟩ := h; cases hget.symm.trans h
  | fieldRef m => obtain ⟨o, n, h, -⟩ := h; cases hget.symm.trans h
  | methodRef m => obtain ⟨o, n, h, -⟩ := h; cases hget.symm.trans h

theorem Request.Leads.of_later (wf : pool.WellFormed) (hext : pool.Extends later) (hget : pool.get? i = some c)
    (h : r.Leads later i) : r.Leads pool i := by
  rcases exists_request wf hget with ⟨bytes, rfl⟩ | ⟨s, hs⟩
  · obtain ⟨text, rfl, rfl⟩ := h.eq_utf8 (hext.get? hget)
    exact hget
  · exact (hs.mono hext).eq h ▸ hs

/-! ## Pools within pools -/

structure Within (small large : ConstantPool) : Prop where
  text : ∀ bytes, .utf8 bytes ∈ small.list → .utf8 bytes ∈ large.list
  request : ∀ (r : Request) i, r.Leads small i → ∃ j, r.Leads large j

theorem Within.of_extends (hext : small.Extends large) : small.Within large :=
  ⟨fun _ hc => List.IsPrefix.mem hc hext, fun _ i hi => ⟨i, hi.mono hext⟩⟩

/-- The constants stand for the same, each in its pool. -/
inductive Same (small large : ConstantPool) : Constant → Constant → Prop
  | text (bytes : Bytes) : Same small large (.utf8 bytes) (.utf8 bytes)
  | request {r : Request} {i j : UInt16} {c d : Constant} (hc : small.get? i = some c) (hi : r.Leads small i)
      (hd : large.get? j = some d) (hj : r.Leads large j) : Same small large c d

theorem Within.exists_same (h : small.Within large) (wf : small.WellFormed) (hc : c ∈ small.list) :
    ∃ d ∈ large.list, Same small large c d := by
  obtain ⟨i, hi⟩ := exists_get? hc wf
  rcases exists_request wf hi with ⟨bytes, rfl⟩ | ⟨r, hr⟩
  · exact ⟨_, h.text bytes hc, .text bytes⟩
  · obtain ⟨j, hj⟩ := h.request r i hr
    obtain ⟨d, hd⟩ := hj.exists_get?
    exact ⟨d, mem_of_get? hd, .request hi hr hd hj⟩

theorem Same.unique (wf : small.WellFormed) (wf' : large.WellFormed) {c' : Constant} (h : Same small large c d)
    (h' : Same small large c' d) : c = c' := by
  cases h with
  | text bytes =>
    cases h' with
    | text => rfl
    | request hc hi hd hj =>
      obtain ⟨text, rfl, rfl⟩ := hj.eq_utf8 hd
      exact Option.some.inj (Eq.trans (Eq.symm hi) hc)
  | request hc hi hd hj =>
    cases h' with
    | text bytes =>
      obtain ⟨text, rfl, rfl⟩ := hj.eq_utf8 hd
      exact Option.some.inj (hc.symm.trans hi)
    | request hc' hi' hd' hj' =>
      obtain rfl := wf'.index_unique hd hd'
      obtain rfl := hj.eq hj'
      obtain rfl := hi.unique wf hi'
      exact Option.some.inj (hc.symm.trans hc')

theorem Within.length_lt (h : small.Within large) (wf : small.WellFormed) (wf' : large.WellFormed)
    (hj : r.Leads large j) (hnew : ∀ i, ¬r.Leads small i) : small.list.length < large.list.length := by
  obtain ⟨d, hd⟩ := hj.exists_get?
  have hmem : d ∈ large.list.toFinset := List.mem_toFinset.2 (mem_of_get? hd)
  have hcard : small.list.toFinset.card ≤ (large.list.toFinset.erase d).card := by
    apply Finset.card_le_card_of_forall_subsingleton (Same small large)
    · intro c hc
      obtain ⟨e, he, hsame⟩ := h.exists_same wf (List.mem_toFinset.1 hc)
      refine ⟨e, Finset.mem_erase.2 ⟨?_, List.mem_toFinset.2 he⟩, hsame⟩
      -- the constant that is missing stands for no constant of the small pool
      rintro rfl
      cases hsame with
      | text bytes =>
        obtain ⟨text, rfl, rfl⟩ := hj.eq_utf8 hd
        obtain ⟨i, hi⟩ := exists_get? (List.mem_toFinset.1 hc) wf
        exact hnew i hi
      | request _ hi hd' hj' =>
        obtain rfl := wf'.index_unique hd hd'
        obtain rfl := hj.eq hj'
        exact hnew _ hi
    · rintro e - c ⟨-, hc⟩ c' ⟨-, hc'⟩
      exact hc.unique wf wf' hc'
  rw [Finset.card_erase_of_mem hmem, List.toFinset_card_of_nodup wf.nodup, List.toFinset_card_of_nodup wf'.nodup] at hcard
  have := List.length_pos_of_mem (mem_of_get? hd)
  omega

/-! ## Asking for what the larger pool has -/

/-- In the pool, and in those after it, the constant stands for the request. -/
structure Codes (pool : ConstantPool) (c : Constant) (r : Request) : Prop where
  supports : pool.Supports c
  leads_iff : ∀ later : ConstantPool, pool.Extends later → later.WellFormed →
    ∀ i, r.Leads later i ↔ later.get? i = some c

theorem codes_text {text : String} (h : (ModifiedUtf8.encode text).length ≤ 65535) :
    pool.Codes (.utf8 (ModifiedUtf8.encode text)) (.utf8 text) :=
  ⟨h, fun _ _ _ _ => Iff.rfl⟩

theorem codes_of_text {make : UInt16 → Constant} {n : UInt16} {text : String}
    (hr : ∀ later i, r.Leads later i ↔ ∃ n, later.get? i = some (make n) ∧ later.IsText n text)
    (hn : pool.IsText n text) (hs : pool.Supports (make n)) : pool.Codes (make n) r := by
  refine ⟨hs, fun later hext hwf i => ?_⟩
  rw [hr]
  constructor
  · rintro ⟨m, hget, hm⟩
    obtain rfl := hwf.index_unique hm (hn.mono hext)
    exact hget
  · intro hget
    exact ⟨n, hget, hn.mono hext⟩

theorem codes_nameAndType {n d : UInt16} {name descriptor : String} (hn : pool.IsText n name)
    (hd : pool.IsText d descriptor) : pool.Codes (.nameAndType n d) (.nameAndType name descriptor) := by
  refine ⟨⟨⟨name, hn⟩, descriptor, hd⟩, fun later hext hwf i => ⟨?_, fun hget => ?_⟩⟩
  · rintro ⟨n', d', hget, hname, hdescriptor⟩
    obtain rfl := hwf.index_unique hname (hn.mono hext)
    obtain rfl := hwf.index_unique hdescriptor (hd.mono hext)
    exact hget
  · exact ⟨n, d, hget, hn.mono hext, hd.mono hext⟩

theorem codes_of_member {m : MemberRef} {make : UInt16 → UInt16 → Constant} {o n : UInt16}
    (hr : ∀ later i, r.Leads later i ↔ ∃ o n, later.get? i = some (make o n) ∧ later.IsClass o m.owner ∧
      later.IsNameAndType n m.name m.descriptor)
    (ho : pool.IsClass o m.owner) (hn : pool.IsNameAndType n m.name m.descriptor) (hs : pool.Supports (make o n)) :
    pool.Codes (make o n) r := by
  refine ⟨hs, fun later hext hwf i => ?_⟩
  rw [hr]
  constructor
  · rintro ⟨o', n', hget, ho', hn'⟩
    obtain rfl := ho'.unique hwf (ho.mono hext)
    obtain rfl := Request.Leads.unique (r := .nameAndType m.name m.descriptor) hwf hn' (IsNameAndType.mono hext hn)
    exact hget
  · intro hget
    exact ⟨o, n, hget, ho.mono hext, hn.mono hext⟩

def Finds (large : ConstantPool) (request : Interning UInt16) (r : Request) (small : ConstantPool) : Prop :=
  ∃ i later, request small = .ok i later ∧ small.Gives r.Leads i later ∧ later.Within large

theorem within_push (codes : small.Codes c r) (wf : small.WellFormed) (wf' : ((small.append c).sync).WellFormed)
    (h : small.Within large) (hj : r.Leads large j) : ((small.append c).sync).Within large := by
  have hext := small.extends_push c
  refine ⟨?_, ?_⟩
  · intro bytes hbytes
    rw [list_push, List.mem_append, List.mem_singleton] at hbytes
    rcases hbytes with hbytes | rfl
    · exact h.text bytes hbytes
    · obtain ⟨i, hi⟩ := exists_get? (c := .utf8 bytes) (by simp [list_push]) wf'
      obtain ⟨text, rfl, rfl⟩ := ((codes.leads_iff _ hext wf' i).2 hi).eq_utf8 hi
      exact mem_of_get? hj
  · intro s i hs
    obtain ⟨d, hd⟩ := hs.exists_get?
    -- A request leads to the new constant only if it is the one that the constant codes.
    rcases get?_push_cases hd with hold | ⟨-, rfl⟩
    · exact h.request s i (hs.of_later wf hext hold)
    · obtain rfl := ((codes.leads_iff _ hext wf' i).2 hd).eq hs
      exact ⟨j, hj⟩

theorem intern_finds (codes : small.Codes c r) (wf : small.WellFormed) (wf' : large.WellFormed)
    (h : small.Within large) (hj : r.Leads large j) : Finds large (intern c) r small := by
  have hleads := codes.leads_iff small (.refl small) wf
  unfold Finds intern
  cases hp : small.constants.position? c.bytes with
  | some k => exact ⟨_, _, rfl, ⟨.refl small, wf, (hleads _).2 (get?_of_position? wf.length_le hp)⟩, h⟩
  | none =>
    have new : c ∉ small.list := fun hmem => Register.position?_eq_none.1 hp c hmem rfl
    -- The larger pool has what is missing here, so there is room for it.
    have hfewer := h.length_lt wf wf' hj fun i hi => new (mem_of_get? ((hleads i).1 hi))
    have hroom : small.list.length + 1 < 65535 := by
      have := wf'.size_le
      omega
    have hpush := wellFormed_push wf codes.supports new hroom
    have hext := small.extends_push c
    have hfull : ¬small.size + 1 ≥ 65535 := Nat.not_le.2 hroom
    simp only [if_neg hfull]
    exact ⟨_, _, rfl, ⟨hext, hpush, (codes.leads_iff _ hext hpush _).2 (get?_push c hroom)⟩,
      within_push codes wf hpush h hj⟩

theorem Finds.bind {first : Interning UInt16} {next : UInt16 → Interning UInt16} {s : Request}
    (h : Finds large first r small)
    (hnext : ∀ n mid, small.Extends mid → mid.WellFormed → r.Leads mid n → mid.Within large → Finds large (next n) s mid) :
    Finds large (first >>= next) s small := by
  obtain ⟨n, mid, hrun, ⟨hext, hwf, hn⟩, hwithin⟩ := h
  obtain ⟨i, later, hrun', ⟨hext', hwf', hi⟩, hwithin'⟩ := hnext n mid hext hwf hn hwithin
  exact ⟨i, later, bind_eq_ok.2 ⟨n, mid, hrun, hrun'⟩, ⟨hext.trans hext', hwf', hi⟩, hwithin'⟩

section Asking

variable (wf' : large.WellFormed)
include wf'

theorem utf8_finds {text : String} (hj : large.IsText j text) (wf : small.WellFormed) (h : small.Within large) :
    Finds large (utf8 text) (.utf8 text) small := by
  have hshort : (ModifiedUtf8.encode text).length ≤ 65535 := wf'.supports _ (mem_of_get? hj)
  unfold utf8
  simp only [if_neg (Nat.not_lt.2 hshort)]
  exact intern_finds (codes_text hshort) wf wf' h (r := .utf8 text) hj

theorem text_finds {text : String} {make : UInt16 → Constant} {n : UInt16} (hn : large.IsText n text)
    (hj : r.Leads large j) (codes : ∀ {pool : ConstantPool} {n : UInt16}, pool.IsText n text → pool.Codes (make n) r)
    (wf : small.WellFormed) (h : small.Within large) :
    Finds large (do
      let n ← utf8 text
      intern (make n)) r small := by
  refine (utf8_finds wf' hn wf h).bind fun n mid _ hwf hn hwithin => ?_
  exact intern_finds (codes hn) hwf wf' hwithin hj

theorem classRef_finds {name : String} (hj : large.IsClass j name) (wf : small.WellFormed) (h : small.Within large) :
    Finds large (classRef name) (.classRef name) small := by
  obtain ⟨n, -, hname⟩ := id hj
  exact text_finds wf' hname hj (fun hn => codes_of_text (fun _ _ => Iff.rfl) hn ⟨name, hn⟩) wf h

theorem nameAndType_finds {name descriptor : String} (hj : large.IsNameAndType j name descriptor)
    (wf : small.WellFormed) (h : small.Within large) :
    Finds large (nameAndType name descriptor) (.nameAndType name descriptor) small := by
  obtain ⟨n, d, -, hname, hdescriptor⟩ := id hj
  refine (utf8_finds wf' hname wf h).bind fun n mid _ hwf hn hwithin => ?_
  refine (utf8_finds wf' hdescriptor hwf hwithin).bind fun d last hext hwf hd hwithin => ?_
  exact intern_finds (codes_nameAndType (IsText.mono hext hn) hd) hwf wf' hwithin hj

theorem member_finds {m : MemberRef} {make : UInt16 → UInt16 → Constant} {o n : UInt16}
    (ho : large.IsClass o m.owner) (hn : large.IsNameAndType n m.name m.descriptor) (hj : r.Leads large j)
    (codes : ∀ {pool : ConstantPool} {o n : UInt16}, pool.IsClass o m.owner →
      pool.IsNameAndType n m.name m.descriptor → pool.Codes (make o n) r)
    (wf : small.WellFormed) (h : small.Within large) :
    Finds large (do
      let owner ← classRef m.owner
      let member ← nameAndType m.name m.descriptor
      intern (make owner member)) r small := by
  refine (classRef_finds wf' ho wf h).bind fun o mid _ hwf ho hwithin => ?_
  refine (nameAndType_finds wf' hn hwf hwithin).bind fun n last hext hwf hn hwithin => ?_
  exact intern_finds (codes (IsClass.mono hext ho) hn) hwf wf' hwithin hj

theorem Request.ask_finds (hj : r.Leads large j) (wf : small.WellFormed) (h : small.Within large) :
    Finds large r.ask r small := by
  cases r with
  | utf8 text => exact utf8_finds wf' hj wf h
  | integer value => exact intern_finds ⟨trivial, fun _ _ _ _ => Iff.rfl⟩ wf wf' h hj
  | classRef name => exact classRef_finds wf' hj wf h
  | string text =>
    obtain ⟨n, -, htext⟩ := id hj
    exact text_finds wf' htext hj (fun hn => codes_of_text (fun _ _ => Iff.rfl) hn ⟨text, hn⟩) wf h
  | nameAndType name descriptor => exact nameAndType_finds wf' hj wf h
  | fieldRef m =>
    obtain ⟨o, n, -, ho, hn⟩ := id hj
    exact member_finds wf' ho hn hj
      (fun ho hn => codes_of_member (fun _ _ => Iff.rfl) ho hn ⟨⟨_, ho⟩, _, _, hn⟩) wf h
  | methodRef m =>
    obtain ⟨o, n, -, ho, hn⟩ := id hj
    exact member_finds wf' ho hn hj
      (fun ho hn => codes_of_member (fun _ _ => Iff.rfl) ho hn ⟨⟨_, ho⟩, _, _, hn⟩) wf h

end Asking

end ConstantPool

end KnightCode
