import Std.Data.TreeMap

/-!
# Registers

A register is a sequence that grows at its end and finds its entries by key. A search tree over the keys makes the
finding fast, and it is always the tree of the entries, so two registers with the same entries are equal. The first
entry with a key is the one that is found.
-/

namespace KnightCode

variable {κ α : Type} [Ord κ]

def firstPositions (keys : Array κ) : Std.TreeMap κ Nat :=
  keys.toList.zipIdx.foldl (fun tree (key, i) => tree.insertIfNew key i) ∅

theorem firstPositions_push (keys : Array κ) (key : κ) :
    firstPositions (keys.push key) = (firstPositions keys).insertIfNew key keys.size := by
  simp [firstPositions, List.zipIdx_append]

structure Register (κ α : Type) [Ord κ] (key : α → κ) where
  entries : Array α
  tree : Std.TreeMap κ Nat
  tree_eq : tree = firstPositions (entries.map key)

namespace Register

variable {key : α → κ}

def empty : Register κ α key where
  entries := #[]
  tree := ∅
  tree_eq := by simp [firstPositions]

def ofArray (entries : Array α) : Register κ α key where
  entries
  tree := firstPositions (entries.map key)
  tree_eq := rfl

def size (r : Register κ α key) : Nat := r.entries.size

/-- Adds an entry at the end. It is found by its key unless an earlier entry has the same key. -/
def push (r : Register κ α key) (a : α) : Register κ α key :=
  let position := r.entries.size
  { entries := r.entries.push a
    tree := r.tree.insertIfNew (key a) position
    tree_eq := by rw [r.tree_eq, Array.map_push, firstPositions_push, Array.size_map] }

def position? (r : Register κ α key) (k : κ) : Option Nat := r.tree[k]?

def find? (r : Register κ α key) (k : κ) : Option α := (r.position? k).bind (r.entries[·]?)

def modify (r : Register κ α key) (i : Nat) (f : α → α) (keep : ∀ a, key (f a) = key a) : Register κ α key where
  entries := r.entries.modify i f
  tree := r.tree
  tree_eq := by
    rw [r.tree_eq]
    congr 1
    apply Array.ext
    · simp
    · intro j h _
      simp only [Array.getElem_map, Array.getElem_modify]
      split <;> simp [keep]

/-! ## Small laws -/

@[simp] theorem entries_empty : (empty : Register κ α key).entries = #[] := rfl

@[simp] theorem entries_push (r : Register κ α key) (a : α) : (r.push a).entries = r.entries.push a := rfl

theorem ext_entries {r s : Register κ α key} (h : r.entries = s.entries) : r = s := by
  obtain ⟨entries, tree, tree_eq⟩ := r
  obtain ⟨entries', tree', tree_eq'⟩ := s
  subst h tree_eq tree_eq'
  rfl

theorem getElem?_foldl_insertIfNew [Std.TransOrd κ] (keys : List κ) (tree : Std.TreeMap κ Nat) (n : Nat) (k : κ) :
    ((keys.zipIdx n).foldl (fun tree (key, i) => tree.insertIfNew key i) tree)[k]? =
      tree[k]?.or ((keys.findIdx? (compare · k == .eq)).map (· + n)) := by
  induction keys generalizing tree n with
  | nil => simp
  | cons a keys ih =>
    rw [List.zipIdx_cons, List.foldl_cons, ih, Std.TreeMap.getElem?_insertIfNew, List.findIdx?_cons]
    by_cases h : compare a k = .eq
    · have same : tree[a]? = tree[k]? := Std.TreeMap.getElem?_congr h
      by_cases fresh : a ∈ tree
      · have : tree[k]?.isSome := by rw [← same]; simpa using fresh
        obtain ⟨v, hv⟩ := Option.isSome_iff_exists.1 this
        simp [fresh, hv]
      · have : tree[k]? = none := by rw [← same]; simpa using fresh
        simp [h, fresh, this]
    · simp only [h, false_and, if_false, beq_eq_false_iff_ne.2 h, Bool.false_eq_true]
      congr 1
      cases keys.findIdx? (compare · k == .eq) with
      | none => rfl
      | some i => simp [Nat.add_assoc, Nat.add_comm 1]

theorem position?_eq [Std.TransOrd κ] (r : Register κ α key) (k : κ) :
    r.position? k = r.entries.toList.findIdx? (fun a => compare (key a) k == .eq) := by
  rw [position?, r.tree_eq, firstPositions, getElem?_foldl_insertIfNew]
  simp [List.findIdx?_map, Function.comp_def]

end Register

end KnightCode
