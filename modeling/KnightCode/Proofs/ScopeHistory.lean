import KnightCode.Proofs.Declarations
import Mathlib.Data.List.Nodup

/-!
# Scope tables over time

Whatever is done to a new scope table, slots are given out one after the other and never again. So the live variables,
from the outermost scope inwards, have ascending slots, and a name stands for the live variable with the greatest slot.
-/

namespace KnightCode

namespace Scope

def members (s : Scope) : List Variable := s.entries.toList

/-- The variables of scopes, which are given from the innermost outwards: those of the outermost scope come first. -/
def liveIn (scopes : List Scope) : List Variable := scopes.reverse.flatMap members

@[simp] theorem liveIn_nil : liveIn [] = [] := rfl

@[simp] theorem liveIn_cons (s : Scope) (rest : List Scope) : liveIn (s :: rest) = liveIn rest ++ s.members := by
  simp [liveIn]

@[simp] theorem members_empty : members .empty = [] := rfl

@[simp] theorem members_push (s : Scope) (v : Variable) : members (s.push v) = s.members ++ [v] := by
  simp [members]

theorem find?_eq (s : Scope) (name : String) : s.find? name = s.members.find? (fun v => v.name = name) :=
  Register.find?_eq s name

theorem mem_liveIn {scopes : List Scope} {v : Variable} : v ∈ liveIn scopes ↔ ∃ s ∈ scopes, v ∈ s.members := by
  simp [liveIn]

end Scope

/-- The variable with another value, if it has this slot. -/
def Variable.assigned (slot : UInt16) (value : Value) (v : Variable) : Variable :=
  if v.slot = slot then { v with value } else v

@[simp] theorem Variable.name_assigned (slot : UInt16) (value : Value) (v : Variable) :
    (v.assigned slot value).name = v.name := by
  unfold assigned
  split <;> rfl

@[simp] theorem Variable.slot_assigned (slot : UInt16) (value : Value) (v : Variable) :
    (v.assigned slot value).slot = v.slot := by
  unfold assigned
  split <;> rfl

def Declaration.variable (d : Declaration) (slot : UInt16) : Variable := ⟨d.name, d.type, slot, d.type.default⟩

namespace ScopeTable

def scopes (t : ScopeTable) : List Scope := t.innermost :: t.outer

def live (t : ScopeTable) : List Variable := Scope.liveIn t.scopes

/-! ## Operations -/

inductive Operation
  | enter
  | exit
  | declare (name : String) (type : VarType) (value : Value)
  | set (name : String) (value : Value)
  deriving DecidableEq, Repr

def Operation.perform : Operation → Scoping (Option Variable)
  | .enter => fun t => .ok none t.enter
  | .exit => fun t => .ok none t.exit
  | .declare name type value => fun t =>
    match ScopeTable.declare name type value t with
    | .ok v t' => .ok (some v) t'
    | .error fault t' => .error fault t'
  | .set name value => fun t =>
    match ScopeTable.set name value t with
    | .ok _ t' => .ok none t'
    | .error fault t' => .error fault t'

def after (t : ScopeTable) (operations : List Operation) : ScopeTable :=
  operations.foldl (fun t operation => lastState (operation.perform t)) t

def declaredBy : EStateM.Result Fault ScopeTable (Option Variable) → List Variable
  | .ok v _ => v.toList
  | .error .. => []

def declared (t : ScopeTable) : List Operation → List Variable
  | [] => []
  | operation :: rest => declaredBy (operation.perform t) ++ declared (lastState (operation.perform t)) rest

/-! ## Orderly tables -/

structure Orderly (t : ScopeTable) : Prop where
  names : ∀ s ∈ t.scopes, (s.members.map Variable.name).Nodup
  ascending : t.live.Pairwise fun v w => v.slot < w.slot
  below : ∀ v ∈ t.live, v.slot < t.nextSlot

theorem orderly_empty : empty.Orderly := by
  constructor <;> simp [empty, scopes, live]

/-! ### What a name stands for -/

theorem lookup?_eq_findSome? (t : ScopeTable) (name : String) :
    t.lookup? name = t.scopes.findSome? (·.find? name) := by
  unfold lookup? scopes
  rw [List.findSome?_cons]
  cases t.innermost.find? name <;> rfl

theorem findSome?_eq_none_iff {scopes : List Scope} {name : String} :
    scopes.findSome? (·.find? name) = none ↔ ∀ v ∈ Scope.liveIn scopes, v.name ≠ name := by
  simp only [List.findSome?_eq_none_iff, Scope.find?_eq, List.find?_eq_none, Scope.mem_liveIn, decide_eq_true_eq]
  constructor
  · rintro h v ⟨s, hs, hv⟩
    exact h s hs v hv
  · intro h s hs v hv
    exact h v ⟨s, hs, hv⟩

/-- The first scope that has the name has its newest variable: the variables of the scopes around it are older. -/
theorem greatest_of_findSome? {scopes : List Scope} {name : String} {v : Variable}
    (names : ∀ s ∈ scopes, (s.members.map Variable.name).Nodup)
    (ascending : (Scope.liveIn scopes).Pairwise fun v w => v.slot < w.slot)
    (h : scopes.findSome? (·.find? name) = some v) :
    v ∈ Scope.liveIn scopes ∧ v.name = name ∧ ∀ w ∈ Scope.liveIn scopes, w.name = name → w.slot ≤ v.slot := by
  -- From the innermost scope outwards: slots descend on the way, so the first hit is the greatest.
  induction scopes with
  | nil => simp at h
  | cons s rest ih =>
    rw [Scope.liveIn_cons] at ascending
    obtain ⟨holder, -, hacross⟩ := List.pairwise_append.1 ascending
    rw [List.findSome?_cons] at h
    simp only [Scope.liveIn_cons, List.mem_append]
    cases hfind : s.find? name with
    | some u =>
      rw [hfind] at h
      cases h
      rw [Scope.find?_eq] at hfind
      have hmem : v ∈ s.members := List.mem_of_find?_eq_some hfind
      have hname : v.name = name := by simpa using List.find?_some hfind
      refine ⟨.inr hmem, hname, ?_⟩
      rintro w (hw | hw) hwname
      · exact UInt16.le_of_lt (hacross w hw v hmem)
      · rw [List.inj_on_of_nodup_map (names s (.head _)) hw hmem (hwname.trans hname.symm)]
        exact UInt16.le_refl _
    | none =>
      rw [hfind] at h
      obtain ⟨hmem, hname, hgreatest⟩ := ih (fun r hr => names r (.tail _ hr)) holder h
      refine ⟨.inl hmem, hname, ?_⟩
      rintro w (hw | hw) hwname
      · exact hgreatest w hw hwname
      · rw [Scope.find?_eq, List.find?_eq_none] at hfind
        exact absurd (decide_eq_true hwname) (hfind w hw)

theorem lookup?_eq_none {t : ScopeTable} {name : String} :
    t.lookup? name = none ↔ ∀ v ∈ t.live, v.name ≠ name := by
  rw [lookup?_eq_findSome?]
  exact findSome?_eq_none_iff

namespace Orderly

variable {t : ScopeTable} (h : t.Orderly)
include h

theorem eq_of_slot {v w : Variable} (hv : v ∈ t.live) (hw : w ∈ t.live) (heq : v.slot = w.slot) : v = w := by
  apply List.inj_on_of_nodup_map (f := Variable.slot) _ hv hw heq
  exact (List.pairwise_map.2 h.ascending).imp UInt16.ne_of_lt

theorem lookup?_eq_some {name : String} {v : Variable} : t.lookup? name = some v ↔
    v ∈ t.live ∧ v.name = name ∧ ∀ w ∈ t.live, w.name = name → w.slot ≤ v.slot := by
  have hsound : ∀ u, t.lookup? name = some u →
      u ∈ t.live ∧ u.name = name ∧ ∀ w ∈ t.live, w.name = name → w.slot ≤ u.slot := by
    intro u hu
    rw [lookup?_eq_findSome?] at hu
    exact greatest_of_findSome? h.names h.ascending hu
  refine ⟨hsound v, ?_⟩
  rintro ⟨hmem, hname, hgreatest⟩
  cases hlookup : t.lookup? name with
  | none => exact absurd hname (lookup?_eq_none.1 hlookup v hmem)
  | some u =>
    obtain ⟨humem, huname, hugreatest⟩ := hsound u hlookup
    have hslot : u.slot = v.slot := UInt16.le_antisymm (hgreatest u humem huname) (hugreatest v hmem hname)
    rw [h.eq_of_slot humem hmem hslot]

end Orderly

/-! ## Steps -/

theorem Orderly.enter {t : ScopeTable} (h : t.Orderly) : t.enter.Orderly := by
  have hlive : t.enter.live = t.live := by simp [live, scopes, ScopeTable.enter]
  constructor
  · simpa [scopes, ScopeTable.enter] using h.names
  · rw [hlive]
    exact h.ascending
  · rw [hlive]
    exact h.below

theorem Orderly.exit {t : ScopeTable} (h : t.Orderly) : t.exit.Orderly := by
  obtain ⟨innermost, outer, nextSlot⟩ := t
  cases outer with
  | nil => exact h
  | cons s outer =>
    have hlive : live ⟨innermost, s :: outer, nextSlot⟩ = live ⟨s, outer, nextSlot⟩ ++ innermost.members :=
      Scope.liveIn_cons _ _
    have hascending := h.ascending
    have hbelow := h.below
    rw [hlive] at hascending hbelow
    constructor
    · intro r hr
      exact h.names r (.tail _ hr)
    · exact (List.pairwise_append.1 hascending).1
    · intro v hv
      exact hbelow v (List.mem_append_left _ hv)

/-! ### Declarations -/

def extended (t : ScopeTable) (v : Variable) : ScopeTable :=
  { t with innermost := t.innermost.push v, nextSlot := t.nextSlot + 1 }

theorem declare_eq (name : String) (type : VarType) (value : Value) (t : ScopeTable) :
    declare name type value t =
      if t.nextSlot = 65535 then .error (.code (.tooManyVariables name)) t
      else if name ∈ t.current.map Variable.name then .error (.duplicate name) t
      else .ok ⟨name, type, t.nextSlot, value⟩ (t.extended ⟨name, type, t.nextSlot, value⟩) := by
  have hknown : (t.innermost.position? name).isSome = true ↔ name ∈ t.current.map Variable.name := by
    rw [← not_iff_not, Option.not_isSome_iff_eq_none, Register.position?_eq_none]
    simp [current]
  unfold declare
  split
  · rfl
  · by_cases h : name ∈ t.current.map Variable.name
    · rw [if_pos (hknown.2 h), if_pos h]
    · rw [if_neg (fun hsome => h (hknown.1 hsome)), if_neg h]
      rfl

theorem toNat_nextSlot_extended {t : ScopeTable} (room : t.nextSlot ≠ 65535) (v : Variable) :
    (t.extended v).nextSlot.toNat = t.nextSlot.toNat + 1 := by
  have hne : t.nextSlot.toNat ≠ 65535 := fun heq => room (UInt16.toNat_inj.1 heq)
  have hlt := t.nextSlot.toNat_lt
  simp only [extended, UInt16.toNat_add, UInt16.toNat_one]
  omega

def known (t : ScopeTable) : List String := t.current.map Variable.name

section Declare

variable {t : ScopeTable} {d : Declaration}

theorem known_extended (t : ScopeTable) (d : Declaration) (slot : UInt16) :
    (t.extended (d.variable slot)).known = t.known ++ [d.name] := by
  simp [known, current, extended, Declaration.variable]

theorem current_extended (t : ScopeTable) (v : Variable) : (t.extended v).current = t.current ++ [v] := by
  simp [current, extended]

theorem declare_full (full : t.nextSlot = 65535) (name : String) (type : VarType) (value : Value) :
    declare name type value t = .error (.code (.tooManyVariables name)) t := by rw [declare_eq, if_pos full]

theorem declare_again (room : t.nextSlot ≠ 65535) {name : String} (again : name ∈ t.known) (type : VarType)
    (value : Value) : declare name type value t = .error (.duplicate name) t := by
  rw [declare_eq, if_neg room]
  exact if_pos again

theorem declare_eq_duplicate_iff {name : String} {type : VarType} {value : Value} :
    declare name type value t = .error (.duplicate name) t ↔ name ∈ t.known ∧ t.nextSlot ≠ 65535 := by
  refine ⟨?_, fun h => declare_again h.2 h.1 type value⟩
  intro h
  rw [declare_eq] at h
  split at h
  · cases h
  · next room =>
    split at h
    · next again => exact ⟨again, room⟩
    · cases h

theorem declare_fresh (room : t.nextSlot ≠ 65535) (fresh : d.name ∉ t.known) :
    declare d.name d.type d.type.default t =
      .ok (d.variable t.nextSlot) (t.extended (d.variable t.nextSlot)) := by
  rw [declare_eq, if_neg room]
  exact if_neg fresh

end Declare

theorem live_extended (t : ScopeTable) (v : Variable) : (t.extended v).live = t.live ++ [v] := by
  simp [live, scopes, extended]

theorem Orderly.extended {t : ScopeTable} (h : t.Orderly) (room : t.nextSlot ≠ 65535) {v : Variable}
    (slot : v.slot = t.nextSlot) (fresh : v.name ∉ t.current.map Variable.name) : (t.extended v).Orderly := by
  have hnext := toNat_nextSlot_extended room v
  constructor
  · intro s hs
    rcases List.mem_cons.1 hs with rfl | hs
    · have hold := h.names t.innermost (.head _)
      have hmembers : (t.extended v).innermost.members = t.innermost.members ++ [v] := Scope.members_push _ _
      rw [hmembers, List.map_append]
      apply List.nodup_append.2 ⟨hold, by simp, _⟩
      rintro a ha b hb rfl
      rw [List.mem_singleton.1 hb] at ha
      exact fresh ha
    · exact h.names s (.tail _ hs)
  · rw [live_extended]
    apply List.pairwise_append.2 ⟨h.ascending, by simp, _⟩
    intro w hw u hu
    rw [List.mem_singleton.1 hu, slot]
    exact h.below w hw
  · rw [live_extended]
    intro w hw
    rw [UInt16.lt_iff_toNat_lt, hnext]
    rcases List.mem_append.1 hw with hw | hw
    · have := UInt16.lt_iff_toNat_lt.1 (h.below w hw)
      omega
    · rw [List.mem_singleton.1 hw, slot]
      omega

/-! ### Values -/

/-- The second list of scopes is the first one with the value of one variable changed. -/
def Reassigned (slot : UInt16) (value : Value) (scopes scopes' : List Scope) : Prop :=
  scopes'.map Scope.members = scopes.map fun s => s.members.map (Variable.assigned slot value)

theorem map_assigned_of_ne {vars : List Variable} {slot : UInt16} (value : Value)
    (h : ∀ v ∈ vars, v.slot ≠ slot) : vars.map (Variable.assigned slot value) = vars := by
  have hsame : ∀ v ∈ vars, v.assigned slot value = id v := fun v hv => if_neg (h v hv)
  rw [List.map_congr_left hsame, List.map_id]

theorem members_setAt {s : Scope} (ascending : s.members.Pairwise fun v w => v.slot < w.slot) {i : Nat} {v : Variable}
    (hi : s.members[i]? = some v) (value : Value) :
    (s.setAt i value).members = s.members.map (Variable.assigned v.slot value) := by
  rw [show (s.setAt i value).members = s.members.modify i ({ · with value }) from s.toList_setAt i value]
  apply List.ext_getElem?
  intro j
  rw [List.getElem?_modify, List.getElem?_map]
  -- Slots ascend, so no other member has this one.
  by_cases hij : i = j
  · subst hij
    simp [hi, Variable.assigned]
  · cases hj : s.members[j]? with
    | none => rfl
    | some w =>
      have hne : w.slot ≠ v.slot := by
        intro heq
        have hslots : (s.members.map Variable.slot).Nodup := (List.pairwise_map.2 ascending).imp UInt16.ne_of_lt
        obtain ⟨hlt, -⟩ := List.getElem?_eq_some_iff.1 hi
        exact hij ((List.getElem?_inj (by simpa using hlt) hslots).1 (by simp [hi, hj, heq]))
      simp [hij, Variable.assigned, hne]

theorem isSome_setFirst? (name : String) (value : Value) (scopes : List Scope) :
    (setFirst? name value scopes).isSome = (scopes.findSome? (·.find? name)).isSome := by
  induction scopes with
  | nil => rfl
  | cons s rest ih =>
    rw [List.findSome?_cons, setFirst?]
    cases hposition : s.position? name with
    | some i =>
      obtain ⟨v, hv, -⟩ := Register.position?_eq_some hposition
      have hfind : s.find? name = some v := by
        rw [Register.find?, hposition, Option.bind_some, ← Array.getElem?_toList, hv]
      rw [hfind]
      rfl
    | none =>
      have hfind : s.find? name = none := by rw [Register.find?, hposition]; rfl
      simpa [hfind] using ih

theorem setFirst?_eq_none {scopes : List Scope} {name : String} (value : Value)
    (h : scopes.findSome? (·.find? name) = none) : setFirst? name value scopes = none := by
  have hsome := isSome_setFirst? name value scopes
  rw [h] at hsome
  simpa using hsome

theorem setFirst?_eq_some {scopes : List Scope} {name : String} {v : Variable} (value : Value)
    (ascending : (Scope.liveIn scopes).Pairwise fun v w => v.slot < w.slot)
    (h : scopes.findSome? (·.find? name) = some v) :
    ∃ scopes', setFirst? name value scopes = some scopes' ∧ Reassigned v.slot value scopes scopes' := by
  -- A slot belongs to one variable, so in all the other scopes assigning to it changes nothing.
  induction scopes with
  | nil => simp at h
  | cons s rest ih =>
    rw [Scope.liveIn_cons] at ascending
    obtain ⟨holder, hinner, hacross⟩ := List.pairwise_append.1 ascending
    rw [List.findSome?_cons] at h
    cases hposition : s.position? name with
    | some i =>
      obtain ⟨u, hu, -⟩ := Register.position?_eq_some hposition
      have hfind : s.find? name = some u := by
        rw [Register.find?, hposition, Option.bind_some, ← Array.getElem?_toList, hu]
      rw [hfind] at h
      cases h
      have hmem : v ∈ s.members := List.mem_of_getElem? hu
      refine ⟨s.setAt i value :: rest, by simp [setFirst?, hposition], ?_⟩
      unfold Reassigned
      rw [List.map_cons, List.map_cons, members_setAt hinner hu]
      congr 1
      apply List.map_congr_left
      intro r hr
      refine (map_assigned_of_ne value ?_).symm
      intro w hw
      exact UInt16.ne_of_lt (hacross w (Scope.mem_liveIn.2 ⟨r, hr, hw⟩) v hmem)
    | none =>
      have hfind : s.find? name = none := by rw [Register.find?, hposition]; rfl
      rw [hfind] at h
      obtain ⟨rest', hrest, hchanged⟩ := ih holder h
      refine ⟨s :: rest', by simp [setFirst?, hposition, hrest], ?_⟩
      have hmem : v ∈ Scope.liveIn rest := by
        obtain ⟨r, hr, hv⟩ := List.exists_of_findSome?_eq_some h
        rw [Scope.find?_eq] at hv
        exact Scope.mem_liveIn.2 ⟨r, hr, List.mem_of_find?_eq_some hv⟩
      unfold Reassigned at hchanged ⊢
      rw [List.map_cons, List.map_cons, hchanged, map_assigned_of_ne]
      intro w hw
      exact (UInt16.ne_of_lt (hacross v hmem w hw)).symm

theorem set_eq (name : String) (value : Value) (t : ScopeTable) :
    set name value t =
      match setFirst? name value t.scopes with
      | some (s :: rest) => .ok () ⟨s, rest, t.nextSlot⟩
      | _ => .error (.undeclared name) t := by
  unfold set scopes
  rw [setFirst?]
  cases t.innermost.position? name with
  | some i => rfl
  | none => cases setFirst? name value t.outer <;> rfl

theorem set_of_lookup?_none {t : ScopeTable} {name : String} (h : t.lookup? name = none) (value : Value) :
    set name value t = .error (.undeclared name) t := by
  rw [lookup?_eq_findSome?] at h
  rw [set_eq, setFirst?_eq_none value h]

theorem Orderly.set_of_lookup? {t : ScopeTable} (h : t.Orderly) {name : String} {v : Variable}
    (hv : t.lookup? name = some v) (value : Value) :
    ∃ t', ScopeTable.set name value t = .ok () t' ∧ t'.nextSlot = t.nextSlot ∧
      Reassigned v.slot value t.scopes t'.scopes := by
  rw [lookup?_eq_findSome?] at hv
  obtain ⟨scopes', hset, hchanged⟩ := setFirst?_eq_some value h.ascending hv
  have hlength := congrArg List.length hchanged
  cases scopes' with
  | nil => simp [scopes] at hlength
  | cons s rest => exact ⟨⟨s, rest, t.nextSlot⟩, by rw [set_eq, hset], rfl, hchanged⟩

theorem liveIn_eq_flatten (scopes : List Scope) : Scope.liveIn scopes = (scopes.map Scope.members).reverse.flatten := by
  simp [Scope.liveIn, List.flatMap_def]

theorem Reassigned.live {slot : UInt16} {value : Value} {t t' : ScopeTable}
    (h : Reassigned slot value t.scopes t'.scopes) : t'.live = t.live.map (Variable.assigned slot value) := by
  unfold Reassigned at h
  unfold ScopeTable.live
  rw [liveIn_eq_flatten, liveIn_eq_flatten, h, List.map_flatten, List.map_reverse, List.map_map]
  rfl

theorem Orderly.reassigned {slot : UInt16} {value : Value} {t t' : ScopeTable} (h : t.Orderly)
    (hnext : t'.nextSlot = t.nextSlot) (hchanged : Reassigned slot value t.scopes t'.scopes) : t'.Orderly := by
  constructor
  · intro s' hs'
    have hmem : s'.members ∈ t'.scopes.map Scope.members := List.mem_map_of_mem hs'
    rw [show t'.scopes.map Scope.members = _ from hchanged] at hmem
    obtain ⟨s, hs, heq⟩ := List.mem_map.1 hmem
    rw [← heq, List.map_map]
    simpa [Function.comp_def] using h.names s hs
  · rw [hchanged.live, List.pairwise_map]
    simpa using h.ascending
  · rw [hchanged.live, hnext]
    intro v hv
    obtain ⟨w, hw, rfl⟩ := List.mem_map.1 hv
    simpa using h.below w hw

/-! ## Runs -/

/-- What an operation leaves, whether or not it succeeds. -/
structure Kept (t : ScopeTable) (result : EStateM.Result Fault ScopeTable (Option Variable)) : Prop where
  orderly : (lastState result).Orderly
  next : (lastState result).nextSlot.toNat = t.nextSlot.toNat + (declaredBy result).length
  slot : ∀ v ∈ declaredBy result, v.slot = t.nextSlot
  unchanged : ∀ fault t', result = .error fault t' → t' = t

theorem Orderly.kept_of_error {t : ScopeTable} (h : t.Orderly) (fault : Fault) : Kept t (.error fault t) := by
  refine ⟨h, rfl, by simp [declaredBy], ?_⟩
  intro fault t' heq
  cases heq
  rfl

theorem Orderly.kept_of_ok {t t' : ScopeTable} (h : t'.Orderly) (hnext : t'.nextSlot = t.nextSlot) :
    Kept t (.ok none t') :=
  ⟨h, congrArg UInt16.toNat hnext, by simp [declaredBy], by simp⟩

theorem nextSlot_exit (t : ScopeTable) : t.exit.nextSlot = t.nextSlot := by
  unfold exit
  split <;> rfl

theorem Orderly.perform {t : ScopeTable} (h : t.Orderly) (operation : Operation) :
    Kept t (operation.perform t) := by
  unfold Operation.perform
  cases operation with
  | enter => exact h.enter.kept_of_ok rfl
  | exit => exact h.exit.kept_of_ok t.nextSlot_exit
  | declare name type value =>
    simp only [declare_eq]
    by_cases full : t.nextSlot = 65535
    · rw [if_pos full]
      exact h.kept_of_error _
    · rw [if_neg full]
      by_cases known : name ∈ t.current.map Variable.name
      · rw [if_pos known]
        exact h.kept_of_error _
      · rw [if_neg known]
        exact ⟨h.extended full rfl known, toNat_nextSlot_extended full _, by simp [declaredBy], by simp⟩
  | set name value =>
    simp only
    cases hlookup : t.lookup? name with
    | none =>
      rw [set_of_lookup?_none hlookup]
      exact h.kept_of_error _
    | some v =>
      obtain ⟨t', hset, hnext, hchanged⟩ := h.set_of_lookup? hlookup value
      rw [hset]
      exact (h.reassigned hnext hchanged).kept_of_ok hnext

theorem after_keeps {t : ScopeTable} (h : t.Orderly) (operations : List Operation) :
    (t.after operations).Orderly ∧
      (t.after operations).nextSlot.toNat = t.nextSlot.toNat + (t.declared operations).length ∧
      ∀ k v, (t.declared operations)[k]? = some v → v.slot.toNat = t.nextSlot.toNat + k := by
  induction operations generalizing t with
  | nil => exact ⟨h, rfl, by simp [declared]⟩
  | cons operation rest ih =>
    have hstep := h.perform operation
    obtain ⟨horderly, hnext, hslots⟩ := ih hstep.orderly
    have hsmall : (declaredBy (operation.perform t)).length ≤ 1 := by
      unfold declaredBy
      split
      · exact Option.length_toList_le
      · simp
    have hnow := hstep.next
    refine ⟨horderly, ?_, ?_⟩
    · simp only [after, List.foldl_cons] at hnext ⊢
      simp only [declared, List.length_append]
      omega
    · intro k v hv
      rw [declared] at hv
      rcases Nat.lt_or_ge k (declaredBy (operation.perform t)).length with hk | hk
      · rw [List.getElem?_append_left hk] at hv
        rw [hstep.slot v (List.mem_of_getElem? hv)]
        omega
      · rw [List.getElem?_append_right hk] at hv
        have hlater := hslots _ v hv
        omega

/-- Whatever has been done to a new table, it has a scope, and the declarations that succeeded have the slots from one on,
in their order. Names are unique in each scope, and the slots of the live variables ascend from the outermost scope
inwards. A name stands for its live variable with the greatest slot, which is the one that gets a new value. A
declaration succeeds if a slot is left and the scope has no such name. What fails changes nothing. -/
theorem slots_given_once (operations : List Operation) :
    let t := empty.after operations
    let given := empty.declared operations
    t.scopes.length = t.depth ∧ 1 ≤ t.depth ∧
    (∀ k v, given[k]? = some v → v.slot.toNat = k + 1) ∧
    t.nextSlot.toNat = given.length + 1 ∧
    (∀ v ∈ given, v.slot ≤ 65534) ∧
    (∀ s ∈ t.scopes, (s.members.map Variable.name).Nodup) ∧
    (t.live.Pairwise fun v w => v.slot < w.slot) ∧
    (∀ v ∈ t.live, v.slot < t.nextSlot) ∧
    (∀ name v, t.lookup? name = some v ↔
      v ∈ t.live ∧ v.name = name ∧ ∀ w ∈ t.live, w.name = name → w.slot ≤ v.slot) ∧
    (∀ name, t.lookup? name = none ↔ ∀ v ∈ t.live, v.name ≠ name) ∧
    (∀ name type value, t.nextSlot ≠ 65535 → name ∉ t.current.map Variable.name → ∃ v t',
      declare name type value t = .ok v t' ∧ v = ⟨name, type, t.nextSlot, value⟩ ∧ t'.live = t.live ++ [v]) ∧
    (∀ name value v, t.lookup? name = some v → ∃ t', set name value t = .ok () t' ∧ t'.nextSlot = t.nextSlot ∧
      Reassigned v.slot value t.scopes t'.scopes) ∧
    ∀ (operation : Operation) fault t', operation.perform t = .error fault t' → t' = t := by
  intro t given
  obtain ⟨horderly, hnext, hslots⟩ := after_keeps orderly_empty operations
  have hslots : ∀ k v, given[k]? = some v → v.slot.toNat = k + 1 := by
    intro k v hv
    rw [hslots k v hv, Nat.add_comm]
    rfl
  have hnext : t.nextSlot.toNat = given.length + 1 := by
    rw [hnext, Nat.add_comm]
    rfl
  refine ⟨rfl, Nat.le_add_left _ _, hslots, hnext, ?_, horderly.names, horderly.ascending, horderly.below,
    fun _ _ => horderly.lookup?_eq_some, fun _ => lookup?_eq_none, ?_, ?_,
    fun operation => (horderly.perform operation).unchanged⟩
  · intro v hv
    obtain ⟨k, hk⟩ := List.getElem?_of_mem hv
    obtain ⟨hlt, -⟩ := List.getElem?_eq_some_iff.1 hk
    have hslot := hslots k v hk
    have hbound := t.nextSlot.toNat_lt
    rw [UInt16.le_iff_toNat_le, show (65534 : UInt16).toNat = 65534 from rfl]
    omega
  · intro name type value room fresh
    exact ⟨_, _, by rw [declare_eq, if_neg room, if_neg fresh], rfl, live_extended _ _⟩
  · intro name value v hv
    exact horderly.set_of_lookup? hv value

/-- A name is declared again in an inner scope, twice there; the last scope is left, and the name is declared once more. -/
def shadowed : List Operation :=
  [.declare "x" .integer (.integer 0), .enter, .declare "x" .text (.text ""), .declare "x" .integer (.integer 1), .exit,
    .exit, .enter, .declare "x" .text (.text "a")]

theorem slots_given_once_shadowed :
    (empty.declared shadowed)[2]? = some ⟨"x", .text, 3, .text "a"⟩ ∧
    (empty.after shadowed).lookup? "x" = some ⟨"x", .text, 3, .text "a"⟩ ∧
    (empty.after shadowed).nextSlot ≠ 65535 ∧ "y" ∉ (empty.after shadowed).current.map Variable.name ∧
    (∃ v t', declare "y" .integer (.integer 0) (empty.after shadowed) = .ok v t' ∧
      v = ⟨"y", .integer, (empty.after shadowed).nextSlot, .integer 0⟩ ∧ t'.live = (empty.after shadowed).live ++ [v]) ∧
    ∃ t', set "x" (.text "b") (empty.after shadowed) = .ok () t' ∧ t'.nextSlot = (empty.after shadowed).nextSlot ∧
      Reassigned 3 (.text "b") (empty.after shadowed).scopes t'.scopes := by
  have hgiven : (empty.declared shadowed)[2]? = some ⟨"x", .text, 3, .text "a"⟩ := by decide +kernel
  have hlookup : (empty.after shadowed).lookup? "x" = some ⟨"x", .text, 3, .text "a"⟩ := by decide +kernel
  have hroom : (empty.after shadowed).nextSlot ≠ 65535 := by decide +kernel
  have hfresh : "y" ∉ (empty.after shadowed).current.map Variable.name := by decide +kernel
  obtain ⟨-, -, -, -, -, -, -, -, -, -, hdeclare, hset, -⟩ := slots_given_once shadowed
  exact ⟨hgiven, hlookup, hroom, hfresh, hdeclare _ _ _ hroom hfresh, hset _ _ _ hlookup⟩

end ScopeTable

end KnightCode
