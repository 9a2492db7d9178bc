import KnightCode.Proofs.Discipline

/-!
# Where ways meet

Several labels can be bound to one place. In a run of typed calls all of them have the same operand stack, and it is the
one that the body has when its code reaches that place.
-/

namespace KnightCode

structure Body.Meets (b : Body) : Prop where
  le : ∀ (i : Nat) (l : Label) (p : Nat), b.labels[i]? = some l → l.position = some p → p ≤ b.items.size
  here : ∀ (i : Nat) (l : Label), b.labels[i]? = some l → l.position = some b.items.size →
    b.reachable = true ∧ l.stack = some b.stack
  bound : ∀ (i : Nat) (l : Label) (p : Nat), b.labels[i]? = some l → l.position = some p → ∃ S, l.stack = some S
  same : ∀ (i j : Nat) (l k : Label) (p : Nat), b.labels[i]? = some l → b.labels[j]? = some k →
    l.position = some p → k.position = some p → l.stack = k.stack
  referenced : ∀ (i : Nat) (l : Label), b.labels[i]? = some l → l.referenced = true → ∃ S, l.stack = some S

namespace Body.Meets

variable {b b' : Body}

theorem of_kept (h : b.Meets) (hitems : b.items.size < b'.items.size)
    (hkept : ∀ (i : Nat) (l' : Label) (p : Nat), b'.labels[i]? = some l' → l'.position = some p →
      ∃ l, b.labels[i]? = some l ∧ l.position = some p ∧ l.stack = l'.stack)
    (hreferenced : ∀ (i : Nat) (l : Label), b'.labels[i]? = some l → l.referenced = true → ∃ S, l.stack = some S) :
    b'.Meets where
  le := by
    intro i l' p hl' hp
    obtain ⟨l, hl, hp, -⟩ := hkept i l' p hl' hp
    have := h.le i l p hl hp
    omega
  here := by
    intro i l' hl' hp
    obtain ⟨l, hl, hp, -⟩ := hkept i l' _ hl' hp
    have := h.le i l _ hl hp
    omega
  bound := by
    intro i l' p hl' hp
    obtain ⟨l, hl, hp, hstack⟩ := hkept i l' p hl' hp
    rw [← hstack]
    exact h.bound i l p hl hp
  same := by
    intro i j l' k' p hl' hk' hp hp'
    obtain ⟨l, hl, hp, hstack⟩ := hkept i l' p hl' hp
    obtain ⟨k, hk, hp', hstack'⟩ := hkept j k' p hk' hp'
    rw [← hstack, ← hstack']
    exact h.same i j l k p hl hk hp hp'
  referenced := hreferenced

theorem of_branched {label : Nat} {S : Types} {l : Label} (h : b.Meets) (hitems : b.items.size < b'.items.size)
    (hl : b.labels[label]? = some l) (hfits : l.Fits S)
    (hlabels : b'.labels = b.labels.modify label fun l => { l.join S b.locals with referenced := true }) : b'.Meets := by
  refine h.of_kept hitems ?_ ?_
  · intro i l' p hl' hp
    rw [hlabels] at hl'
    obtain ⟨rfl, k, hk, rfl⟩ | ⟨-, hl'⟩ := getElem?_modify_cases hl'
    · rw [hl] at hk
      cases hk
      -- The label had its stack when it was bound, and the branch fits it.
      have hp : l.position = some p := hp
      obtain ⟨T, hT⟩ := h.bound label l p hl hp
      exact ⟨l, hl, hp, by rw [hT, hfits T hT]; rfl⟩
    · exact ⟨l', hl', hp, rfl⟩
  · intro i l' hl' hr
    rw [hlabels] at hl'
    obtain ⟨-, k, -, rfl⟩ | ⟨-, hl'⟩ := getElem?_modify_cases hl'
    · exact ⟨S, rfl⟩
    · exact h.referenced i l' hl' hr

theorem of_bind {label : Nat} {f : Label → Label} (h : b.Meets) (hitems : b'.items = b.items)
    (hlabels : b'.labels = b.labels.modify label f)
    (hf : ∀ l, b.labels[label]? = some l → (f l).position = some b.items.size ∧ (f l).stack = some b'.stack)
    (hreach : b'.reachable = true) (hstack : b.reachable = true → b'.stack = b.stack) : b'.Meets := by
  -- Each label of the new body is the bound one or an old one.
  have hcases : ∀ (i : Nat) (l' : Label), b'.labels[i]? = some l' →
      l'.position = some b.items.size ∧ l'.stack = some b'.stack ∨ b.labels[i]? = some l' := by
    intro i l' hl'
    rw [hlabels] at hl'
    obtain ⟨-, l, hl, rfl⟩ | ⟨-, hl'⟩ := getElem?_modify_cases hl'
    · exact .inl (hf l hl)
    · exact .inr hl'
  have hhere : ∀ (i : Nat) (l' : Label), b'.labels[i]? = some l' → l'.position = some b.items.size →
      l'.stack = some b'.stack := by
    intro i l' hl' hp
    rcases hcases i l' hl' with ⟨-, hS⟩ | hl
    · exact hS
    · obtain ⟨hr, hS⟩ := h.here i l' hl hp
      rw [hS, hstack hr]
  refine ⟨?le, ?here, ?bound, ?same, ?referenced⟩
  case le =>
    intro i l' p hl' hp
    rw [hitems]
    rcases hcases i l' hl' with ⟨hp', -⟩ | hl
    · rw [hp] at hp'
      cases hp'
      exact Nat.le_refl _
    · exact h.le i l' p hl hp
  case here =>
    intro i l' hl' hp
    rw [hitems] at hp
    exact ⟨hreach, hhere i l' hl' hp⟩
  case bound =>
    intro i l' p hl' hp
    rcases hcases i l' hl' with ⟨-, hS⟩ | hl
    · exact ⟨_, hS⟩
    · exact h.bound i l' p hl hp
  case same =>
    intro i j l' k' p hl' hk' hp hp'
    rcases hcases i l' hl' with ⟨hend, hS⟩ | hl
    · rw [hp] at hend
      cases hend
      rw [hS, hhere j k' hk' hp']
    · rcases hcases j k' hk' with ⟨hend, hS⟩ | hk
      · rw [hp'] at hend
        cases hend
        rw [hS, hhere i l' hl' hp]
      · exact h.same i j l' k' p hl hk hp hp'
  case referenced =>
    intro i l' hl' hr
    rcases hcases i l' hl' with ⟨-, hS⟩ | hl
    · exact ⟨_, hS⟩
    · exact h.referenced i l' hl hr

theorem of_newLabel (h : b.Meets) :
    Body.Meets { b with labels := b.labels.push ⟨none, false, b.locals, none⟩ } where
  le := by
    intro i l p hl hp
    obtain rfl | hl := getElem?_push_cases hl
    · cases hp
    · exact h.le i l p hl hp
  here := by
    intro i l hl hp
    obtain rfl | hl := getElem?_push_cases hl
    · cases hp
    · exact h.here i l hl hp
  bound := by
    intro i l p hl hp
    obtain rfl | hl := getElem?_push_cases hl
    · cases hp
    · exact h.bound i l p hl hp
  same := by
    intro i j l k p hl hk hp hp'
    obtain rfl | hl := getElem?_push_cases hl
    · cases hp
    · obtain rfl | hk := getElem?_push_cases hk
      · cases hp'
      · exact h.same i j l k p hl hk hp hp'
  referenced := by
    intro i l hl hr
    obtain rfl | hl := getElem?_push_cases hl
    · cases hr
    · exact h.referenced i l hl hr

end Body.Meets

theorem Call.Effect.meets {c : Call} {b b' : Body} (h : c.Effect b b') (typed : c.Typed b) (hb : b.Meets) :
    b'.Meets := by
  cases c with
  | newLabel =>
    obtain rfl := h
    exact hb.of_newLabel
  | branch condition label =>
    obtain ⟨S, popped, l, -, -, hl, hfits, rfl⟩ := h
    exact hb.of_branched (by simp [Body.branched, Body.added]) hl hfits rfl
  | jump label =>
    obtain ⟨l, hl, hfits, rfl⟩ := h
    exact hb.of_branched (by simp [Body.branched, Body.added]) hl hfits rfl
  | bind label =>
    obtain ⟨l, hl, -, ⟨hreach, -, rfl⟩ | ⟨hreach, rfl⟩⟩ := h
    · exact hb.of_bind (f := fun l => { l.join b.stack b.locals with position := some b.items.size }) rfl rfl
        (fun _ _ => ⟨rfl, rfl⟩) hreach fun _ => rfl
    · -- Only branches lead here, so that the operand stack is known.
      obtain ⟨S, hS⟩ : ∃ S, l.stack = some S := by
        rcases typed with hr | ⟨l', hl', hreferenced⟩
        · rw [hr] at hreach
          cases hreach
        · rw [hl] at hl'
          cases hl'
          exact hb.referenced label l hl hreferenced
      refine hb.of_bind (f := fun l => { l with position := some b.items.size }) rfl rfl ?_ rfl ?_
      · intro l' hl'
        rw [hl] at hl'
        cases hl'
        exact ⟨rfl, by rw [hS]; rfl⟩
      · intro hr
        rw [hr] at hreach
        cases hreach
  | _ =>
    obtain ⟨i, -, hadvances, -⟩ := h.advances rfl rfl
    refine hb.of_kept (by simp [hadvances.items]) ?_ (by rw [hadvances.labels]; exact hb.referenced)
    intro i l p hl hp
    rw [hadvances.labels] at hl
    exact ⟨l, hl, hp, rfl⟩

/-! ## Labels of a later body -/

theorem Call.Effect.position_cases {c : Call} {b b' : Body} (h : c.Effect b b') {i p : Nat}
    (hp : b'.position? i = some p) : b.position? i = some p ∨ (c = .bind i ∧ p = b.items.size) := by
  by_cases hbind : c = .bind i
  · subst hbind
    rw [h.bind_position] at hp
    exact .inr ⟨rfl, (Option.some.inj hp).symm⟩
  · refine .inl ?_
    obtain ⟨l', hl', hp'⟩ := Option.bind_eq_some_iff.1 hp
    -- Calls that change a label leave its place alone, but for the one that binds it.
    have hkept : ∀ (label : Nat) (f : Label → Label), (∀ l : Label, label = i → (f l).position = l.position) →
        (b.labels.modify label f)[i]? = some l' → b.position? i = some p := by
      intro label f hf hl'
      obtain ⟨rfl, l, hl, rfl⟩ | ⟨-, hl'⟩ := getElem?_modify_cases hl'
      · exact Option.bind_eq_some_iff.2 ⟨l, hl, by rw [← hf l rfl]; exact hp'⟩
      · exact Option.bind_eq_some_iff.2 ⟨l', hl', hp'⟩
    cases c with
    | newLabel =>
      obtain rfl := h
      obtain rfl | hl' := getElem?_push_cases hl'
      · cases hp'
      · exact Option.bind_eq_some_iff.2 ⟨l', hl', hp'⟩
    | branch condition label =>
      obtain ⟨S, popped, l, -, -, -, -, rfl⟩ := h
      exact hkept label (fun l => { l.join S b.locals with referenced := true }) (fun _ _ => rfl) hl'
    | jump label =>
      obtain ⟨l, -, -, rfl⟩ := h
      exact hkept label (fun l => { l.join b.stack b.locals with referenced := true }) (fun _ _ => rfl) hl'
    | bind label =>
      have hother : label ≠ i := fun heq => hbind (by rw [heq])
      obtain ⟨l, -, -, ⟨-, -, rfl⟩ | ⟨-, rfl⟩⟩ := h
      · exact hkept label _ (fun _ heq => absurd heq hother) hl'
      · exact hkept label _ (fun _ heq => absurd heq hother) hl'
    | _ =>
      obtain ⟨_, -, hadvances, -⟩ := h.advances rfl rfl
      rw [hadvances.labels] at hl'
      exact Option.bind_eq_some_iff.2 ⟨l', hl', hp'⟩

/-- A label that is bound later on is bound behind the code that there is. -/
theorem Performs.position_cases {calls : List Call} {b b' : Body} (h : Performs calls b b') {i p : Nat}
    (hp : b'.position? i = some p) : b.position? i = some p ∨ b.items.size ≤ p := by
  -- On the run: a call binds a label to the end of the code that there is then, and code never gets shorter.
  induction h with
  | nil b => exact .inl hp
  | cons first _ ih =>
    have hitems := first.adds
    rcases ih hp with hm | hm
    · rcases first.position_cases hm with hb | ⟨-, rfl⟩
      · exact .inl hb
      · exact .inr (Nat.le_refl _)
    · refine .inr (Nat.le_trans ?_ hm)
      obtain ⟨-, heq, -⟩ | ⟨-, item, -, heq, -⟩ := hitems
      · exact Nat.le_of_eq (by rw [heq])
      · rw [heq, Array.size_push]
        exact Nat.le_succ _

end KnightCode
