/-!
# Work with a state

How to reason about work that changes a state and may fail. `Yields` says what holds after success and which failures
there can be; the laws take the work apart step by step.
-/

namespace KnightCode

variable {ε σ α β : Type}

/-- If the work succeeds, `good` holds of its result and the new state; if it fails, `bad` holds of the failure. -/
def Yields (work : EStateM ε σ α) (s : σ) (good : α → σ → Prop) (bad : ε → Prop) : Prop :=
  match work s with
  | .ok a s' => good a s'
  | .error e _ => bad e

namespace Yields

variable {work : EStateM ε σ α} {s s' : σ} {good good' : α → σ → Prop} {bad bad' : ε → Prop} {a : α} {e : ε}

theorem of_ok (h : Yields work s good bad) (run : work s = .ok a s') : good a s' := by
  rw [Yields, run] at h
  exact h

theorem of_error (h : Yields work s good bad) (run : work s = .error e s') : bad e := by
  rw [Yields, run] at h
  exact h

theorem intro (hgood : ∀ a s', work s = .ok a s' → good a s') (hbad : ∀ e s', work s = .error e s' → bad e) :
    Yields work s good bad := by
  unfold Yields
  split
  · next h => exact hgood _ _ h
  · next h => exact hbad _ _ h

theorem mono (h : Yields work s good bad) (hgood : ∀ a s', good a s' → good' a s') (hbad : ∀ e, bad e → bad' e) :
    Yields work s good' bad' :=
  intro (fun a s' run => hgood a s' (h.of_ok run)) (fun e _ run => hbad e (h.of_error run))

theorem imp (h : Yields work s good bad) (hgood : ∀ a s', good a s' → good' a s') : Yields work s good' bad :=
  h.mono hgood fun _ => id

theorem bind {next : α → EStateM ε σ β} {good' : β → σ → Prop} (h : Yields work s good bad)
    (hnext : ∀ a s', good a s' → Yields (next a) s' good' bad) : Yields (work >>= next) s good' bad := by
  have run : (work >>= next) s = EStateM.bind work next s := rfl
  unfold Yields
  rw [run, EStateM.bind]
  cases hw : work s with
  | ok a s' => exact hnext a s' (h.of_ok hw)
  | error e s' => exact h.of_error hw

theorem step {next : α → EStateM ε σ β} {good : β → σ → Prop} (run : work s = .ok a s')
    (h : Yields (next a) s' good bad) : Yields (work >>= next) s good bad := by
  have hbind : (work >>= next) s = EStateM.bind work next s := rfl
  unfold Yields
  rw [hbind, EStateM.bind, run]
  exact h

theorem of_pure (h : good a s) : Yields (pure a : EStateM ε σ α) s good bad := h

theorem of_modify {f : σ → σ} {good : PUnit → σ → Prop} (h : good ⟨⟩ (f s)) :
    Yields (modify f : EStateM ε σ PUnit) s good bad := h

theorem of_throw (h : bad e) : Yields (throw e : EStateM ε σ α) s good bad := h

theorem of_get {next : σ → EStateM ε σ β} {good : β → σ → Prop} (h : Yields (next s) s good bad) :
    Yields (get >>= next) s good bad := h

end Yields

/-! ## Runs -/

/-- The state in which work ends, be it in a failure. -/
def lastState : EStateM.Result ε σ α → σ
  | .ok _ s => s
  | .error _ s => s

theorem lastState_bind (work : EStateM ε σ α) (next : α → EStateM ε σ β) (s : σ) :
    lastState ((work >>= next) s) =
      match work s with
      | .ok a s' => lastState (next a s')
      | .error _ s' => s' := by
  have run : (work >>= next) s = EStateM.bind work next s := rfl
  rw [run, EStateM.bind]
  cases work s <;> rfl

theorem bind_eq_ok {work : EStateM ε σ α} {next : α → EStateM ε σ β} {s s'' : σ} {b : β} :
    (work >>= next) s = .ok b s'' ↔ ∃ a s', work s = .ok a s' ∧ next a s' = .ok b s'' := by
  have run : (work >>= next) s = EStateM.bind work next s := rfl
  rw [run, EStateM.bind]
  cases work s with
  | ok a s' =>
    constructor
    · intro h
      exact ⟨a, s', rfl, h⟩
    · rintro ⟨_, _, h, hnext⟩
      cases h
      exact hnext
  | error e s' => simp

theorem bind_run_ok {work : EStateM ε σ α} {next : α → EStateM ε σ β} {s s' : σ} {a : α} (h : work s = .ok a s') :
    (work >>= next) s = next a s' := by
  have run : (work >>= next) s = EStateM.bind work next s := rfl
  rw [run, EStateM.bind, h]

theorem get_bind_run (next : σ → EStateM ε σ β) (s : σ) : (get >>= next) s = next s s := rfl

theorem bind_eq_error {work : EStateM ε σ α} {next : α → EStateM ε σ β} {s s'' : σ} {e : ε} :
    (work >>= next) s = .error e s'' ↔
      work s = .error e s'' ∨ ∃ a s', work s = .ok a s' ∧ next a s' = .error e s'' := by
  have run : (work >>= next) s = EStateM.bind work next s := rfl
  rw [run, EStateM.bind]
  cases work s with
  | ok a s' =>
    constructor
    · intro h
      exact .inr ⟨a, s', rfl, h⟩
    · rintro (h | ⟨_, _, h, hnext⟩)
      · cases h
      · cases h
        exact hnext
  | error e s' => simp

theorem bind_run_congr {work work' : EStateM ε σ α} {next next' : α → EStateM ε σ β} {s : σ} (h : work s = work' s)
    (hnext : ∀ a s', work s = .ok a s' → next a s' = next' a s') : (work >>= next) s = (work' >>= next') s := by
  have run : ∀ (w : EStateM ε σ α) (n : α → EStateM ε σ β), (w >>= n) s = EStateM.bind w n s := fun _ _ => rfl
  rw [run, run, EStateM.bind, EStateM.bind, ← h]
  cases hw : work s with
  | ok a s' => exact hnext a s' hw
  | error e s' => rfl

theorem except_bind_eq_ok {x : Except ε α} {g : α → Except ε β} {b : β} :
    (x >>= g) = .ok b ↔ ∃ a, x = .ok a ∧ g a = .ok b := by
  cases x with
  | ok a => simp [bind, Except.bind]
  | error e => simp [bind, Except.bind]

theorem eq_ok_of_toOption {x : Except ε α} {a : α} (h : x.toOption = some a) : x = .ok a := by
  cases x with
  | ok b =>
    cases h
    rfl
  | error e => cases h

theorem exists_ok_of_run' {work : EStateM ε σ α} {s : σ} {a : α} (h : work.run' s = some a) : ∃ s', work s = .ok a s' := by
  delta EStateM.run' at h
  split at h
  · next b s' hrun =>
    cases h
    exact ⟨s', hrun⟩
  · cases h

/-! ## Changes that work does not notice -/

def withState (f : σ → σ) : EStateM.Result ε σ α → EStateM.Result ε σ α
  | .ok a s => .ok a (f s)
  | .error e s => .error e (f s)

theorem lastState_withState (f : σ → σ) (r : EStateM.Result ε σ α) : lastState (withState f r) = f (lastState r) := by
  cases r <;> rfl

/-- The work goes on a changed state as it goes on the state itself. -/
def Commutes (f : σ → σ) (work : EStateM ε σ α) : Prop := ∀ s, work (f s) = withState f (work s)

namespace Commutes

variable {f : σ → σ} {work : EStateM ε σ α}

theorem bind {next : α → EStateM ε σ β} (h : Commutes f work) (hnext : ∀ a, Commutes f (next a)) :
    Commutes f (work >>= next) := by
  intro s
  have run : ∀ s, (work >>= next) s = EStateM.bind work next s := fun _ => rfl
  rw [run, run, EStateM.bind, EStateM.bind, h s]
  cases work s with
  | ok a s' => exact hnext a s'
  | error e s' => rfl

theorem of_id : Commutes id work := by
  intro s
  rw [id]
  cases work s <;> rfl

theorem of_modify {g : σ → σ} (h : ∀ s, g (f s) = f (g s)) : Commutes f (modify g : EStateM ε σ PUnit) := by
  intro s
  exact congrArg (EStateM.Result.ok PUnit.unit) (h s)

theorem of_get {next : σ → EStateM ε σ α} (same : ∀ s, next (f s) = next s) (h : ∀ s, Commutes f (next s)) :
    Commutes f (get >>= next) := by
  intro s
  rw [get_bind_run, get_bind_run, same, h]

theorem forM {elements : List β} {work : β → EStateM ε σ PUnit} (h : ∀ b ∈ elements, Commutes f (work b)) :
    Commutes f (elements.forM work) := by
  induction elements with
  | nil => exact fun _ => rfl
  | cons b elements ih =>
    obtain ⟨hb, helements⟩ := List.forall_mem_cons.1 h
    exact hb.bind fun _ => ih helements

end Commutes

/-! ## Work on related states -/

/-- Both succeed with the same result or both fail alike, and the states that they leave are related. -/
inductive SameEnd (R : σ → σ → Prop) : EStateM.Result ε σ α → EStateM.Result ε σ α → Prop
  | ok (a : α) {s s' : σ} (related : R s s') : SameEnd R (.ok a s) (.ok a s')
  | error (e : ε) {s s' : σ} (related : R s s') : SameEnd R (.error e s) (.error e s')

theorem SameEnd.of_ok {R : σ → σ → Prop} {a : α} {s : σ} {result : EStateM.Result ε σ α}
    (h : SameEnd R (.ok a s) result) : ∃ s', result = .ok a s' ∧ R s s' := by
  cases h with
  | ok _ related => exact ⟨_, rfl, related⟩

def Respects (R : σ → σ → Prop) (work : EStateM ε σ α) : Prop := ∀ s s', R s s' → SameEnd R (work s) (work s')

namespace Respects

variable {R : σ → σ → Prop} {work : EStateM ε σ α}

theorem of_pure (a : α) : Respects R (pure a : EStateM ε σ α) := fun _ _ => .ok a

theorem bind {next : α → EStateM ε σ β} (h : Respects R work) (hnext : ∀ a, Respects R (next a)) :
    Respects R (work >>= next) := by
  intro s s' related
  have run : ∀ s, (work >>= next) s = EStateM.bind work next s := fun _ => rfl
  have hfirst := h s s' related
  rw [run, run, EStateM.bind, EStateM.bind]
  generalize work s = result at hfirst ⊢
  generalize work s' = result' at hfirst ⊢
  cases hfirst with
  | ok a related => exact hnext a _ _ related
  | error e related => exact .error e related

theorem forM {elements : List β} {work : β → EStateM ε σ PUnit} (h : ∀ b, Respects R (work b)) :
    Respects R (elements.forM work) := by
  induction elements with
  | nil => exact of_pure PUnit.unit
  | cons b elements ih => exact (h b).bind fun _ => ih

end Respects

end KnightCode
