import KnightCode.Proofs.ScopeHistory

/-!
# Tables but for their values

A scope table remembers the literal that was last assigned to each variable. What is left without these values is fixed
by the declarations: the names, the types and the slots, scope by scope. Nothing but a declaration changes it, and
nothing that is done to a table depends on the values.
-/

namespace KnightCode

/-- What a declaration fixes: the name, the type and the slot of a variable. -/
def Variable.fixed (v : Variable) : String × VarType × UInt16 := (v.name, v.type, v.slot)

namespace Scope

def layout (s : Scope) : List (String × VarType × UInt16) := s.members.map Variable.fixed

theorem names_layout (s : Scope) : s.layout.map (·.1) = s.members.map Variable.name := by
  simp [layout, Variable.fixed, Function.comp_def]

theorem layout_push (s : Scope) (v : Variable) : layout (s.push v) = s.layout ++ [v.fixed] := by
  simp [layout]

theorem layout_setAt (s : Scope) (i : Nat) (value : Value) : (s.setAt i value).layout = s.layout := by
  rw [layout, members, toList_setAt]
  exact map_modify_of_eq _ _ _ fun _ => rfl

theorem fixed_find? (s : Scope) (name : String) :
    (s.find? name).map Variable.fixed = s.layout.find? (fun f => f.1 = name) := by
  rw [find?_eq, layout, List.find?_map]
  rfl

end Scope

namespace ScopeTable

def layout (t : ScopeTable) : List (List (String × VarType × UInt16)) := t.scopes.map Scope.layout

/-- The tables have the same variables in the same scopes, perhaps with other values. -/
structure SameButValues (t t' : ScopeTable) : Prop where
  layout : t'.layout = t.layout
  nextSlot : t'.nextSlot = t.nextSlot

theorem fixed_lookup? (t : ScopeTable) (name : String) :
    (t.lookup? name).map Variable.fixed = t.layout.findSome? (List.find? fun f => f.1 = name) := by
  rw [lookup?_eq_findSome?, List.map_findSome?, layout, List.findSome?_map]
  congr 1
  funext s
  exact s.fixed_find? name

theorem layout_extended (t : ScopeTable) (v : Variable) :
    (t.extended v).layout = (t.innermost.layout ++ [v.fixed]) :: t.outer.map Scope.layout := by
  rw [← Scope.layout_push]
  rfl

namespace SameButValues

variable {t t' t'' : ScopeTable}

theorem refl (t : ScopeTable) : SameButValues t t := ⟨rfl, rfl⟩

theorem symm (h : SameButValues t t') : SameButValues t' t := ⟨h.layout.symm, h.nextSlot.symm⟩

theorem trans (h : SameButValues t t') (h' : SameButValues t' t'') : SameButValues t t'' :=
  ⟨h'.layout.trans h.layout, h'.nextSlot.trans h.nextSlot⟩

theorem innermost (h : SameButValues t t') : t'.innermost.layout = t.innermost.layout := (List.cons.inj h.layout).1

theorem outer (h : SameButValues t t') : t'.outer.map Scope.layout = t.outer.map Scope.layout :=
  (List.cons.inj h.layout).2

theorem known (h : SameButValues t t') : t'.known = t.known := by
  have hnames := congrArg (List.map (·.1)) h.innermost
  rwa [Scope.names_layout, Scope.names_layout] at hnames

theorem lookup? (h : SameButValues t t') (name : String) :
    (t'.lookup? name).map Variable.fixed = (t.lookup? name).map Variable.fixed := by
  rw [fixed_lookup?, h.layout, fixed_lookup?]

theorem isSome_lookup? (h : SameButValues t t') (name : String) :
    (t'.lookup? name).isSome = (t.lookup? name).isSome := by
  rw [← Option.isSome_map (f := Variable.fixed), h.lookup?, Option.isSome_map]

theorem extended (h : SameButValues t t') (v : Variable) : SameButValues (t.extended v) (t'.extended v) := by
  refine ⟨?_, congrArg (· + 1) h.nextSlot⟩
  rw [layout_extended, layout_extended, h.innermost, h.outer]

theorem enter (h : SameButValues t t') : SameButValues t.enter t'.enter :=
  ⟨congrArg (Scope.layout .empty :: ·) h.layout, h.nextSlot⟩

/-- If nothing but values has changed since a scope was entered, leaving it gives the table from before. -/
theorem exit (h : SameButValues t.enter t') : SameButValues t t'.exit := by
  obtain ⟨innermost, outer, nextSlot⟩ := t'
  cases outer with
  | nil => cases h.outer
  | cons s rest => exact ⟨h.outer, h.nextSlot⟩

end SameButValues

/-! ## Work on tables -/

theorem layout_of_setFirst? {name : String} {value : Value} {scopes scopes' : List Scope}
    (h : setFirst? name value scopes = some scopes') : scopes'.map Scope.layout = scopes.map Scope.layout := by
  induction scopes generalizing scopes' with
  | nil => cases h
  | cons s rest ih =>
    rw [setFirst?] at h
    split at h
    · cases h
      simp [Scope.layout_setAt]
    · obtain ⟨rest', hrest, rfl⟩ := Option.map_eq_some_iff.1 h
      simpa using ih hrest

theorem set_cases (name : String) (value : Value) (t : ScopeTable) :
    ((t.lookup? name).isSome = true ∧ ∃ t', set name value t = .ok () t' ∧ SameButValues t t') ∨
      ((t.lookup? name).isSome = false ∧ set name value t = .error (.undeclared name) t) := by
  have hsome := isSome_setFirst? name value t.scopes
  rw [← lookup?_eq_findSome?] at hsome
  rw [set_eq]
  cases hset : setFirst? name value t.scopes with
  | none =>
    rw [hset] at hsome
    exact .inr ⟨hsome.symm, rfl⟩
  | some scopes' =>
    have hlayout := layout_of_setFirst? hset
    rw [hset] at hsome
    cases scopes' with
    | nil => cases hlayout
    | cons s rest => exact .inl ⟨hsome.symm, _, rfl, hlayout, rfl⟩

theorem set_respects (name : String) (value : Value) : Respects SameButValues (set name value) := by
  intro t t' h
  rcases set_cases name value t with ⟨hsome, m, hm, hsame⟩ | ⟨hnone, hm⟩
  · rcases set_cases name value t' with ⟨-, m', hm', hsame'⟩ | ⟨hnone', -⟩
    · rw [hm, hm']
      exact .ok () (hsame.symm.trans (h.trans hsame'))
    · rw [h.isSome_lookup?, hsome] at hnone'
      cases hnone'
  · rcases set_cases name value t' with ⟨hsome', -⟩ | ⟨-, hm'⟩
    · rw [h.isSome_lookup?, hnone] at hsome'
      cases hsome'
    · rw [hm, hm']
      exact .error _ h

theorem declare_respects (name : String) (type : VarType) (value : Value) :
    Respects SameButValues (declare name type value) := by
  intro t t' h
  rw [declare_eq, declare_eq, h.nextSlot, show t'.current.map Variable.name = t.current.map Variable.name from h.known]
  split
  · exact .error _ h
  · split
    · exact .error _ h
    · exact .ok _ (h.extended _)

end ScopeTable

end KnightCode
