/-!
# Behaviours

What can be seen of a run: the lines that it prints, one after the other, and how it ends, if it ends. Two runs that go
step by step in different ways can be compared by what is seen of them. `Simulates.sameBehaviour` says that a system
whose every step is matched by steps of another one behaves like it.
-/

namespace KnightCode

inductive Outcome
  | finished
  | divisionByZero
  /-- There was no line to read, or it was no number. -/
  | badInput
  /-- Something without a meaning was met. -/
  | wrong
  deriving DecidableEq, Repr

inductive Progress (σ : Type)
  | go (next : σ) (printed : List String)
  | stop (outcome : Outcome)
  deriving DecidableEq, Repr

abbrev Stepping (σ : Type) := σ → Progress σ

namespace Stepping

variable {σ τ : Type}

/-- A number of steps, with all that is printed on the way. -/
inductive Runs (step : Stepping σ) : Nat → σ → List String → σ → Prop
  | refl (s : σ) : Runs step 0 s [] s
  | cons {n : Nat} {s m t : σ} {first lines : List String} (head : step s = .go m first)
      (tail : Runs step n m lines t) : Runs step (n + 1) s (first ++ lines) t

/-- The run ends and has then printed these lines. -/
def Ends (step : Stepping σ) (s : σ) (lines : List String) (outcome : Outcome) : Prop :=
  ∃ n t, Runs step n s lines t ∧ step t = .stop outcome

def Endless (step : Stepping σ) (s : σ) : Prop := ∀ n, ∃ lines t, Runs step n s lines t

def Prints (step : Stepping σ) (s : σ) (lines : List String) : Prop :=
  ∃ n printed t, Runs step n s printed t ∧ lines <+: printed

/-- Nothing that can be seen tells the two runs apart. -/
structure SameBehaviour (f : Stepping σ) (s : σ) (g : Stepping τ) (t : τ) : Prop where
  ends : ∀ lines outcome, Ends f s lines outcome ↔ Ends g t lines outcome
  endless : Endless f s ↔ Endless g t
  prints : ∀ lines, Prints f s lines ↔ Prints g t lines

theorem SameBehaviour.symm {f : Stepping σ} {g : Stepping τ} {s : σ} {t : τ} (h : SameBehaviour f s g t) :
    SameBehaviour g t f s :=
  ⟨fun lines outcome => (h.ends lines outcome).symm, h.endless.symm, fun lines => (h.prints lines).symm⟩

theorem SameBehaviour.trans {υ : Type} {f : Stepping σ} {g : Stepping τ} {h : Stepping υ} {s : σ} {t : τ} {u : υ}
    (hfg : SameBehaviour f s g t) (hgh : SameBehaviour g t h u) : SameBehaviour f s h u :=
  ⟨fun lines outcome => (hfg.ends lines outcome).trans (hgh.ends lines outcome), hfg.endless.trans hgh.endless,
    fun lines => (hfg.prints lines).trans (hgh.prints lines)⟩

/-! ## Runs -/

section

variable {step : Stepping σ} {n k : Nat} {s m t : σ} {lines more : List String} {outcome : Outcome}

theorem Runs.single (h : step s = .go t lines) : Runs step 1 s lines t := by
  simpa using Runs.cons h (.refl t)

theorem Runs.trans (first : Runs step n s lines m) (second : Runs step k m more t) :
    Runs step (n + k) s (lines ++ more) t := by
  induction first with
  | refl s => simpa using second
  | cons head tail ih =>
    rw [List.append_assoc, Nat.add_right_comm]
    exact .cons head (ih second)

theorem Runs.continues {printed : List String} {u : σ} (short : Runs step n s lines t)
    (long : Runs step (n + k) s printed u) : ∃ more, Runs step k t more u ∧ printed = lines ++ more := by
  induction short generalizing printed with
  | refl s => exact ⟨printed, by simpa using long, rfl⟩
  | cons head tail ih =>
    rw [Nat.add_right_comm] at long
    cases long with
    | cons head' tail' =>
      rw [head] at head'
      cases head'
      obtain ⟨more, hmore, rfl⟩ := ih tail'
      exact ⟨more, hmore, by rw [List.append_assoc]⟩

theorem Runs.take (h : Runs step (n + k) s lines t) : ∃ printed m, Runs step n s printed m := by
  induction n generalizing s lines with
  | zero => exact ⟨[], s, .refl s⟩
  | succ n ih =>
    rw [Nat.add_right_comm] at h
    cases h with
    | cons head tail =>
      obtain ⟨printed, m, hrun⟩ := ih tail
      exact ⟨_, m, .cons head hrun⟩

theorem Runs.le_of_stop {printed : List String} {u : σ} (h : Runs step n s lines t) (hstop : step t = .stop outcome)
    (other : Runs step k s printed u) : k ≤ n := by
  rcases Nat.le_total k n with hle | hle
  · exact hle
  · obtain ⟨extra, rfl⟩ := Nat.le.dest hle
    obtain ⟨more, hmore, -⟩ := h.continues other
    cases hmore with
    | refl => exact Nat.le_refl _
    | cons head tail =>
      rw [hstop] at head
      cases head

theorem Ends.unique {lines' : List String} {outcome' : Outcome} (h : Ends step s lines outcome)
    (h' : Ends step s lines' outcome') : lines = lines' ∧ outcome = outcome' := by
  obtain ⟨n, t, hrun, hstop⟩ := h
  obtain ⟨k, u, hrun', hstop'⟩ := h'
  obtain rfl : n = k := Nat.le_antisymm (hrun'.le_of_stop hstop' hrun) (hrun.le_of_stop hstop hrun')
  obtain ⟨more, hmore, rfl⟩ := hrun.continues (k := 0) hrun'
  cases hmore
  rw [hstop] at hstop'
  cases hstop'
  exact ⟨by simp, rfl⟩

theorem Ends.not_endless (h : Ends step s lines outcome) : ¬Endless step s := by
  intro hendless
  obtain ⟨n, t, hrun, hstop⟩ := h
  obtain ⟨printed, u, hlong⟩ := hendless (n + 1)
  exact Nat.not_succ_le_self n (hrun.le_of_stop hstop hlong)

theorem ends_or_endless (step : Stepping σ) (s : σ) : (∃ lines outcome, Ends step s lines outcome) ∨ Endless step s := by
  by_cases hends : ∃ lines outcome, Ends step s lines outcome
  · exact .inl hends
  · refine .inr fun n => ?_
    induction n with
    | zero => exact ⟨[], s, .refl s⟩
    | succ n ih =>
      obtain ⟨lines, t, hrun⟩ := ih
      cases hstep : step t with
      | go u more => exact ⟨_, u, hrun.trans (.single hstep)⟩
      | stop outcome => exact absurd ⟨lines, outcome, n, t, hrun, hstep⟩ hends

/-- What a run that ends within `n` steps has printed, and how it ends. -/
def outcomeWithin (step : Stepping σ) : Nat → σ → Option (List String × Outcome)
  | 0, _ => none
  | n + 1, s =>
    match step s with
    | .go next first => (outcomeWithin step n next).map fun (lines, outcome) => (first ++ lines, outcome)
    | .stop outcome => some ([], outcome)

theorem ends_iff : Ends step s lines outcome ↔ ∃ n, outcomeWithin step n s = some (lines, outcome) := by
  constructor
  · rintro ⟨n, t, hrun, hstop⟩
    -- Stopping takes one step more.
    refine ⟨n + 1, ?_⟩
    induction hrun with
    | refl s => rw [outcomeWithin, hstop]
    | cons head tail ih => rw [outcomeWithin, head]; simp [ih hstop]
  · rintro ⟨n, h⟩
    induction n generalizing s lines with
    | zero => cases h
    | succ n ih =>
      rw [outcomeWithin] at h
      split at h
      · next next first hstep =>
        obtain ⟨⟨lines', outcome'⟩, hrest, heq⟩ := Option.map_eq_some_iff.1 h
        cases heq
        obtain ⟨k, t, hrun, hstop⟩ := ih hrest
        exact ⟨k + 1, t, .cons hstep hrun, hstop⟩
      · next outcome' hstep =>
        cases h
        exact ⟨0, s, .refl s, hstep⟩

end

/-! ## Simulations -/

/-- Whatever the first system does in related states, the second one does too, in one step or more. -/
structure Simulates (f : Stepping σ) (g : Stepping τ) (R : σ → τ → Prop) : Prop where
  go : ∀ {s s' : σ} {t : τ} {lines : List String}, R s t → f s = .go s' lines →
    ∃ n t', Runs g (n + 1) t lines t' ∧ R s' t'
  stop : ∀ {s : σ} {t : τ} {outcome : Outcome}, R s t → f s = .stop outcome → Ends g t [] outcome

namespace Simulates

variable {f : Stepping σ} {g : Stepping τ} {R : σ → τ → Prop} (h : Simulates f g R) {s s' : σ} {t : τ}
include h

theorem runs {n : Nat} {lines : List String} (hst : R s t) (hrun : Runs f n s lines s') :
    ∃ k t', Runs g (n + k) t lines t' ∧ R s' t' := by
  induction hrun generalizing t with
  | refl s => exact ⟨0, t, .refl t, hst⟩
  | @cons n s m u first lines head tail ih =>
    obtain ⟨j, t₁, hfirst, hm⟩ := h.go hst head
    obtain ⟨k, t₂, hrest, hu⟩ := ih hm
    refine ⟨j + k, t₂, ?_, hu⟩
    have hall := hfirst.trans hrest
    rwa [show j + 1 + (n + k) = n + 1 + (j + k) by omega] at hall

theorem ends {lines : List String} {outcome : Outcome} (hst : R s t) (hends : Ends f s lines outcome) :
    Ends g t lines outcome := by
  obtain ⟨n, u, hrun, hstop⟩ := hends
  obtain ⟨k, t', hrun', hu⟩ := h.runs hst hrun
  obtain ⟨j, t'', hlast, hstop'⟩ := h.stop hu hstop
  exact ⟨_, t'', by simpa using hrun'.trans hlast, hstop'⟩

theorem endless (hst : R s t) (hendless : Endless f s) : Endless g t := by
  intro n
  obtain ⟨lines, u, hrun⟩ := hendless n
  obtain ⟨k, t', hrun', -⟩ := h.runs hst hrun
  exact hrun'.take

/-- Since what the second system does is determined, it can do nothing else than the first. -/
theorem prints_of_prints {lines : List String} (hst : R s t) (hprints : Prints g t lines) : Prints f s lines := by
  obtain ⟨n, printed, t', hrun, hlines⟩ := hprints
  rcases ends_or_endless f s with ⟨all, outcome, hends⟩ | hendless
  · obtain ⟨j, u, hrunf, hstopf⟩ := hends
    obtain ⟨k, v, hrung, hstop⟩ := h.ends hst ⟨j, u, hrunf, hstopf⟩
    obtain ⟨extra, rfl⟩ := Nat.le.dest (hrung.le_of_stop hstop hrun)
    obtain ⟨more, -, rfl⟩ := hrun.continues hrung
    exact ⟨j, _, u, hrunf, hlines.trans (List.prefix_append _ _)⟩
  · obtain ⟨all, u, hrunf⟩ := hendless n
    obtain ⟨k, v, hrung, -⟩ := h.runs hst hrunf
    obtain ⟨more, -, rfl⟩ := hrun.continues hrung
    exact ⟨n, _, u, hrunf, hlines.trans (List.prefix_append _ _)⟩

theorem sameBehaviour (hst : R s t) : SameBehaviour f s g t := by
  refine ⟨fun lines outcome => ⟨h.ends hst, ?_⟩, ⟨h.endless hst, ?_⟩, fun lines => ⟨?_, h.prints_of_prints hst⟩⟩
  · intro hends
    rcases ends_or_endless f s with ⟨lines', outcome', hends'⟩ | hendless
    · obtain ⟨rfl, rfl⟩ := hends.unique (h.ends hst hends')
      exact hends'
    · exact absurd (h.endless hst hendless) hends.not_endless
  · intro hendless
    rcases ends_or_endless f s with ⟨lines, outcome, hends⟩ | hendless'
    · exact absurd hendless (h.ends hst hends).not_endless
    · exact hendless'
  · rintro ⟨n, printed, u, hrun, hlines⟩
    obtain ⟨k, t', hrun', -⟩ := h.runs hst hrun
    exact ⟨_, printed, t', hrun', hlines⟩

omit h in
/-- The second system may have to take some steps before it is where the first one is. -/
theorem delayed (h : Simulates f g R) : Simulates f g fun s t => ∃ n t', Runs g n t [] t' ∧ R s t' := by
  refine ⟨?_, ?_⟩
  · rintro s s' t lines ⟨n, t', hfirst, hst⟩ hgo
    obtain ⟨k, t'', hrun, hst'⟩ := h.go hst hgo
    exact ⟨n + k, t'', hfirst.trans hrun, 0, t'', .refl t'', hst'⟩
  · rintro s t outcome ⟨n, t', hfirst, hst⟩ hstop
    obtain ⟨k, t'', hrun, hstop'⟩ := h.stop hst hstop
    exact ⟨n + k, t'', hfirst.trans hrun, hstop'⟩

end Simulates

end Stepping

end KnightCode
