import KnightCode.Proofs.FrameTable
import Mathlib.Data.List.Nodup
import Mathlib.Data.List.Perm.Subperm
import Mathlib.Data.List.TakeWhile

/-!
# What a table of frames gives back

Frames are recorded in any order, and an address may be recorded again. Of each address the table keeps the last record.
Whoever reads the table finds one frame for each address that was recorded, in the order of the addresses.
-/

namespace KnightCode

namespace Frame

/-! ## Locals without what is left out -/

/-- The second list is the first one without the types `top` at its end. -/
def WithoutTop (locals stored : List VerificationType) : Prop :=
  (∃ n, locals = stored ++ List.replicate n .top) ∧ stored.getLast? ≠ some .top

theorem withoutTop_trim (locals : List VerificationType) : WithoutTop locals (trim locals) := by
  have hsplit : locals = trim locals ++ (locals.reverse.takeWhile (· = .top)).reverse := by
    unfold trim
    rw [← List.reverse_append, List.takeWhile_append_dropWhile, List.reverse_reverse]
  constructor
  · refine ⟨(locals.reverse.takeWhile (· = .top)).length, ?_⟩
    have htops : (locals.reverse.takeWhile (· = .top)).reverse =
        List.replicate (locals.reverse.takeWhile (· = .top)).length .top := by
      apply List.eq_replicate_iff.2 ⟨List.length_reverse, _⟩
      intro t ht
      simpa using List.mem_takeWhile_imp (List.mem_reverse.1 ht)
    rw [← htops]
    exact hsplit
  · unfold trim
    rw [List.getLast?_reverse]
    intro hhead
    have hnot := List.head?_dropWhile_not (· = VerificationType.top) locals.reverse
    rw [hhead] at hnot
    simp at hnot

theorem withoutTop_iff {locals stored : List VerificationType} : WithoutTop locals stored ↔ stored = trim locals := by
  constructor
  · rintro ⟨⟨n, rfl⟩, hlast⟩
    have htops : ∀ t ∈ List.replicate n VerificationType.top, decide (t = .top) = true := by
      intro t ht
      simpa using List.eq_of_mem_replicate ht
    unfold trim
    rw [List.reverse_append, List.reverse_replicate, List.dropWhile_append_of_pos htops]
    -- Trimming goes from the end and stops at the first type that is not `top`.
    cases hstored : stored.reverse with
    | nil => simpa using hstored
    | cons t rest =>
      have hne : t ≠ .top := by
        rintro rfl
        apply hlast
        rw [← List.head?_reverse, hstored]
        rfl
      rw [List.dropWhile_cons_of_neg (by simpa using hne), ← hstored, List.reverse_reverse]
  · rintro rfl
    exact withoutTop_trim locals

/-! ## The last record at an address -/

def lastAt? (records : List Frame) (address : Nat) : Option Frame :=
  (records.filter (·.address = address)).getLast?

theorem lastAt?_cons (r : Frame) (records : List Frame) (address : Nat) :
    lastAt? (r :: records) address = (lastAt? records address).or (if r.address = address then some r else none) := by
  unfold lastAt?
  by_cases h : r.address = address
  · rw [List.filter_cons_of_pos (by simpa using h), List.getLast?_cons, if_pos h]
    cases (records.filter (·.address = address)).getLast? <;> rfl
  · rw [List.filter_cons_of_neg (by simpa using h), if_neg h, Option.or_none]

theorem lastAt?_eq_none {records : List Frame} {address : Nat} :
    lastAt? records address = none ↔ ∀ r ∈ records, r.address ≠ address := by
  simp [lastAt?]

theorem mem_of_lastAt? {records : List Frame} {address : Nat} {r : Frame} (h : lastAt? records address = some r) :
    r ∈ records ∧ r.address = address := by
  simpa using List.mem_filter.1 (List.mem_of_getLast? h)

theorem lastAt?_map_trim (records : List Frame) (address : Nat) :
    lastAt? (records.map fun r => { r with locals := trim r.locals }) address =
      (lastAt? records address).map fun r => { r with locals := trim r.locals } := by
  simp [lastAt?, List.filter_map, Function.comp_def, List.getLast?_map]

/-- Sorting is stable, so it keeps the order of the records at one address. -/
theorem filter_mergeSort (records : List Frame) (address : Nat) :
    (records.mergeSort fun a b => a.address ≤ b.address).filter (·.address = address) =
      records.filter (·.address = address) := by
  have hsorted : (records.filter (·.address = address)).Pairwise fun a b => decide (a.address ≤ b.address) = true := by
    rw [List.pairwise_filter]
    apply List.pairwise_of_forall
    intro a b ha hb
    simp only [decide_eq_true_eq] at ha hb ⊢
    omega
  -- A sorted part of a list stays in order when the list is sorted.
  have hsub : (records.filter (·.address = address)).Sublist (records.mergeSort fun a b => a.address ≤ b.address) :=
    List.sublist_mergeSort (fun a b c hab hbc => by simp only [decide_eq_true_eq] at *; omega)
      (fun a b => by simp only [Bool.or_eq_true, decide_eq_true_eq]; omega) hsorted List.filter_sublist
  have hfiltered := hsub.filter (·.address = address)
  rw [List.filter_filter] at hfiltered
  simp only [Bool.and_self] at hfiltered
  have hlength := ((List.mergeSort_perm records fun a b => a.address ≤ b.address).filter (·.address = address)).length_eq
  exact (hfiltered.eq_of_length hlength.symm).symm

theorem mem_lastPerAddress {frames : List Frame} (sorted : frames.Pairwise fun f g => f.address ≤ g.address) {f : Frame} :
    f ∈ lastPerAddress frames ↔ lastAt? frames f.address = some f := by
  induction frames with
  | nil => simp [lastPerAddress, lastAt?]
  | cons g frames ih =>
    obtain ⟨hfirst, hrest⟩ := List.pairwise_cons.1 sorted
    rw [lastAt?_cons]
    obtain ⟨heq, k, hk, haddress⟩ | ⟨heq, -⟩ := lastPerAddress_cons g frames
    · rw [heq, ih hrest]
      by_cases hg : g.address = f.address
      · have hsome : lastAt? frames f.address ≠ none := by
          rw [Ne, lastAt?_eq_none]
          intro hall
          exact hall k ((lastPerAddress_sublist frames).subset hk) (haddress.trans hg)
        obtain ⟨r, hr⟩ := Option.ne_none_iff_exists'.1 hsome
        simp [hr]
      · simp [hg]
    · -- The frame is kept because no other frame has its address.
      have hnone : lastAt? frames g.address = none := by
        rw [lastAt?_eq_none]
        intro r hr hsame
        obtain ⟨k, hk, haddress⟩ := exists_lastPerAddress hr
        have hascends := lastPerAddress_ascends sorted
        rw [heq] at hascends
        have hlt := (List.pairwise_cons.1 hascends).1 k hk
        omega
      rw [heq, List.mem_cons, ih hrest]
      by_cases hg : g.address = f.address
      · rw [← hg, hnone]
        simp [eq_comm]
      · have hne : f ≠ g := fun h => hg (by rw [h])
        simp [hg, hne]

theorem mem_toStore_iff {records : List Frame} {f : Frame} : f ∈ toStore records ↔
    ∃ r, lastAt? records f.address = some r ∧ f = { r with locals := trim r.locals } := by
  unfold toStore
  rw [mem_lastPerAddress (pairwise_mergeSort_address _), lastAt?, filter_mergeSort, ← lastAt?, lastAt?_map_trim,
    Option.map_eq_some_iff]
  simp only [eq_comm]

theorem length_toStore_le_of_address_lt {records : List Frame} {bound : Nat} (h : ∀ r ∈ records, r.address < bound) :
    (toStore records).length ≤ bound := by
  have hnodup : ((toStore records).map Frame.address).Nodup :=
    (List.pairwise_map.2 (toStore_ascends records)).imp Nat.ne_of_lt
  have hsubset : (toStore records).map Frame.address ⊆ List.range bound := by
    intro address haddress
    obtain ⟨f, hf, rfl⟩ := List.mem_map.1 haddress
    obtain ⟨r, hr, rfl⟩ := mem_toStore hf
    exact List.mem_range.2 (h r hr)
  have hle := (List.subperm_of_subset hnodup hsubset).length_le
  rwa [List.length_map, List.length_range] at hle

theorem mem_resolved_toStore {records : List Frame} {f : TypeFrame VerificationType} :
    f ∈ (toStore records).map (resolved id) ↔
      ∃ r, lastAt? records f.address = some r ∧ WithoutTop r.locals f.locals ∧ f.stack = r.stack := by
  simp only [List.mem_map, mem_toStore_iff, withoutTop_iff]
  constructor
  · rintro ⟨g, ⟨r, hlast, rfl⟩, rfl⟩
    exact ⟨r, hlast, by simp [resolved], by simp [resolved]⟩
  · rintro ⟨r, hlast, hlocals, hstack⟩
    have haddress := (mem_of_lastAt? hlast).2
    refine ⟨{ r with locals := trim r.locals }, ⟨r, by rwa [haddress], rfl⟩, ?_⟩
    simp [resolved, haddress, ← hlocals, ← hstack]

/-- The table of recorded frames, if there is one, is read to its last byte, and what is read is one frame for each
recorded address, in the order of the addresses, with what was recorded there last. -/
theorem table_gives_back_last_records (entry : List VerificationType) (records : List Frame)
    (hrecords : ∀ r ∈ records, r.address ≤ 65534 ∧ r.locals.length ≤ 65535 ∧ r.stack.length ≤ 65535) :
    (records = [] → table? entry records = none) ∧
    (records ≠ [] → ∃ entries start frames, table? entry records = some entries ∧ WithoutTop entry start ∧
      readTable? some start (tableBytes entries) = some frames ∧
      (frames.Pairwise fun f g => f.address < g.address) ∧
      ∀ f, f ∈ frames ↔ ∃ r, lastAt? records f.address = some r ∧ WithoutTop r.locals f.locals ∧ f.stack = r.stack) := by
  constructor
  · intro hnil
    rw [table?_eq, if_pos hnil]
  · intro hsome
    have hfits : ∀ r ∈ records, r.Fits := by
      intro r hr
      obtain ⟨haddress, hlocals, hstack⟩ := hrecords r hr
      constructor <;> omega
    have hcount : (toStore records).length < 65536 := by
      have hbelow : ∀ r ∈ records, r.address < 65535 := fun r hr => Nat.lt_succ_of_le (hrecords r hr).1
      exact Nat.lt_succ_of_le (length_toStore_le_of_address_lt hbelow)
    have htable : table? entry records = some (entriesFrom 0 (trim entry) (toStore records)) := by
      rw [table?_eq, if_neg hsome]
    have hdecoded : decode? some 0 ((trim entry).map id) (entriesFrom 0 (trim entry) (toStore records)) =
        some ((toStore records).map (resolved id)) :=
      decode?_table htable hfits fun _ _ _ _ => rfl
    rw [List.map_id] at hdecoded
    refine ⟨_, trim entry, (toStore records).map (resolved id), htable, withoutTop_trim entry, ?_, ?_, ?_⟩
    · rw [readTable?, readEntries?_of_count htable hcount hfits, Option.bind_some]
      exact hdecoded
    · rw [List.pairwise_map]
      exact toStore_ascends records
    · intro f
      exact mem_resolved_toStore

def revisited : List Frame :=
  [⟨70, [.object 2, .integer, .top], []⟩, ⟨3, [.object 2], [.integer]⟩,
    ⟨70, [.integer, .top, .null, .top], [.integer, .null]⟩]

theorem table_gives_back_last_records_revisited :
    (∀ r ∈ revisited, r.address ≤ 65534 ∧ r.locals.length ≤ 65535 ∧ r.stack.length ≤ 65535) ∧
    ∃ entries start frames, table? [.object 2, .top] revisited = some entries ∧
      readTable? some start (tableBytes entries) = some frames ∧
      ⟨70, [.integer, .top, .null], [.integer, .null]⟩ ∈ frames ∧ ⟨70, [.object 2, .integer], []⟩ ∉ frames := by
  have hbounds : ∀ r ∈ revisited, r.address ≤ 65534 ∧ r.locals.length ≤ 65535 ∧ r.stack.length ≤ 65535 := by decide
  obtain ⟨entries, start, frames, htable, -, hread, -, hframes⟩ :=
    (table_gives_back_last_records [.object 2, .top] revisited hbounds).2 (by decide)
  refine ⟨hbounds, entries, start, frames, htable, hread, ?_, ?_⟩
  · exact (hframes _).2 ⟨⟨70, [.integer, .top, .null, .top], [.integer, .null]⟩, by decide, ⟨⟨1, rfl⟩, by decide⟩, rfl⟩
  · rw [hframes]
    rintro ⟨r, hlast, -, hstack⟩
    have hr : r = ⟨70, [.integer, .top, .null, .top], [.integer, .null]⟩ := Option.some.inj (hlast.symm.trans (by decide))
    rw [hr] at hstack
    cases hstack

end Frame

end KnightCode
