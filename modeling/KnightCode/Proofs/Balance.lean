import KnightCode.Proofs.Discipline
import KnightCode.Proofs.Planning

/-!
# Balance of the generated calls

The calls of an expression add one value to the operand stack and those of statements add none, whatever body they are
made on, if its end can be reached and no call fails. They leave the code and the labels of the body as they are, and
bind each label that they make, once, in the code that they add.
-/

namespace KnightCode

/-! ## Runs of calls that succeed -/

section Runs

variable {c : Call} {calls first second : List Call} {b b' : Body} {i p : Nat}

theorem performAll_position? (h : Call.performAll calls b = .ok () b') (hp : b.position? i = some p) :
    b'.position? i = some p := by
  induction calls generalizing b with
  | nil =>
    obtain rfl := performAll_nil_eq_ok.1 h
    exact hp
  | cons c calls ih =>
    obtain ⟨m, hc, hrest⟩ := performAll_cons_eq_ok.1 h
    exact ih hrest ((Call.step_of_ok hc).position? hp)

theorem bind_not_mem_of_position? (h : Call.performAll calls b = .ok () b') (hp : b.position? i = some p) :
    .bind i ∉ calls := by
  intro hmem
  obtain ⟨done, rest, rfl⟩ := List.append_of_mem hmem
  obtain ⟨m, hdone, htail⟩ := performAll_append_eq_ok.1 h
  obtain ⟨m', hbind, -⟩ := performAll_cons_eq_ok.1 htail
  have hm := performAll_position? hdone hp
  obtain ⟨l, hl, hfree, -⟩ := (Body.bind_behaves i).of_ok hbind
  rw [Body.position?, hl] at hm
  simp [hfree] at hm

theorem count_bind_le_one (h : Call.performAll calls b = .ok () b') (i : Nat) : calls.count (.bind i) ≤ 1 := by
  induction calls generalizing b with
  | nil => simp
  | cons c calls ih =>
    obtain ⟨m, hc, hrest⟩ := performAll_cons_eq_ok.1 h
    by_cases hbind : c = .bind i
    · subst hbind
      have heffect : (Call.bind i).Effect b m := (Body.bind_behaves i).of_ok hc
      have hnone := List.count_eq_zero.2 (bind_not_mem_of_position? hrest heffect.bind_position)
      simp [hnone]
    · rw [List.count_cons_of_ne hbind]
      exact ih hrest

end Runs

/-! ## Code that has been added -/

/-- The code and the labels are as they were, more of both may have been added, and each new label is bound in the new
code. Nothing is said of the loose labels. -/
structure Body.Grows (loose : Nat → Prop) (b b' : Body) : Prop where
  items : b.items.toList <+: b'.items.toList
  labels_le : b.labels.size ≤ b'.labels.size
  labels : ∀ i, i < b.labels.size → ¬loose i → b'.labels[i]? = b.labels[i]?
  bound : ∀ i, b.labels.size ≤ i → i < b'.labels.size → ¬loose i →
    ∃ p, b'.position? i = some p ∧ b.items.size ≤ p ∧ p ≤ b'.items.size

namespace Body.Grows

variable {loose : Nat → Prop} {a b b' c : Body}

theorem items_le (h : Grows loose b b') : b.items.size ≤ b'.items.size := by
  simpa using h.items.length_le

theorem refl (b : Body) : Grows loose b b where
  items := List.prefix_rfl
  labels_le := Nat.le_refl _
  labels _ _ _ := rfl
  bound := by omega

theorem trans (hab : Grows loose a b) (hbc : Grows loose b c) : Grows loose a c where
  items := hab.items.trans hbc.items
  labels_le := Nat.le_trans hab.labels_le hbc.labels_le
  labels i hi hfixed := by
    have hle := hab.labels_le
    rw [hbc.labels i (by omega) hfixed, hab.labels i hi hfixed]
  bound i hi hlt hfixed := by
    have hitems := hab.items_le
    have hitems' := hbc.items_le
    rcases Nat.lt_or_ge i b.labels.size with hold | hnew
    · obtain ⟨p, hp, hmin, hmax⟩ := hab.bound i hi hold hfixed
      refine ⟨p, ?_, hmin, by omega⟩
      rw [position?, hbc.labels i hold hfixed]
      exact hp
    · obtain ⟨p, hp, hmin, hmax⟩ := hbc.bound i hnew hlt hfixed
      exact ⟨p, hp, by omega, hmax⟩

theorem loosen (h : Grows (fun _ => False) b b') : Grows loose b b' :=
  ⟨h.items, h.labels_le, fun i hi _ => h.labels i hi id, fun i hi hlt _ => h.bound i hi hlt id⟩

theorem tighten (h : Grows loose b b') (hloose : ∀ i, loose i → b.labels.size ≤ i ∧
    ∃ p, b'.position? i = some p ∧ b.items.size ≤ p ∧ p ≤ b'.items.size) : Grows (fun _ => False) b b' where
  items := h.items
  labels_le := h.labels_le
  labels i hi _ := h.labels i hi fun hi' => Nat.not_lt.2 (hloose i hi').1 hi
  bound i hi hlt _ := by
    by_cases hi' : loose i
    · exact (hloose i hi').2
    · exact h.bound i hi hlt hi'

theorem of_amends (h : b.Amends b') : Grows loose b b' where
  items := by
    obtain ⟨code, hitems, -⟩ := h.code
    simp [hitems]
  labels_le := Nat.le_of_eq (by rw [h.labels])
  labels i _ _ := by rw [h.labels]
  bound i hi hlt _ := by
    rw [h.labels] at hlt
    omega

theorem of_effect {c : Call} (h : c.Effect b b') (hnew : c = .newLabel → loose b.labels.size)
    (hlabel : ∀ i, c.label? = some i → loose i) : Grows loose b b' where
  items := by
    obtain ⟨-, hitems, -⟩ | ⟨-, item, -, hitems, -⟩ := h.adds
    · simp [hitems]
    · simp [hitems]
  labels_le := by
    rw [h.labels_size]
    omega
  labels i hi hfixed := h.labels_other hi fun hi' => hfixed (hlabel i hi')
  bound i hi hlt hfixed := by
    rw [h.labels_size] at hlt
    -- A label beyond the old ones is one that has just been made.
    by_cases hc : c = .newLabel
    · subst hc
      have hi' : i = b.labels.size := by
        have : [Call.newLabel].count .newLabel = 1 := rfl
        omega
      exact absurd (hi' ▸ hnew rfl) hfixed
    · rw [List.count_singleton] at hlt
      simp [hc] at hlt
      omega

end Body.Grows

/-- Code has been added whose end can be reached. It has `made` labels of its own and leaves `given` more values on the
operand stack. -/
structure Body.Gains (loose : Nat → Prop) (made given : Nat) (b b' : Body) : Prop where
  reachable : b'.reachable = true
  stack : Exchanges 0 given b b'
  grows : Grows loose b b'
  labels_size : b'.labels.size = b.labels.size + made

namespace Body

theorem exchanges_zero {given : Nat} {b b' : Body} :
    Exchanges 0 given b b' ↔ ∃ pushed : Types, pushed.size = given ∧ b'.stack = b.stack ++ pushed := by
  constructor
  · rintro ⟨rest, popped, pushed, hb, hpopped, hb', hpushed⟩
    obtain rfl := Array.eq_empty_of_size_eq_zero hpopped
    exact ⟨pushed, hpushed, by rw [hb', hb, Array.append_empty]⟩
  · rintro ⟨pushed, hpushed, hb'⟩
    exact ⟨b.stack, #[], pushed, by simp, rfl, hb', hpushed⟩

theorem Exchanges.stack_eq {b b' : Body} (h : Exchanges 0 0 b b') : b'.stack = b.stack := by
  obtain ⟨pushed, hpushed, hstack⟩ := exchanges_zero.1 h
  obtain rfl := Array.eq_empty_of_size_eq_zero hpushed
  rw [hstack, Array.append_empty]

namespace Gains

variable {loose : Nat → Prop} {m m' k k' n label : Nat} {a b b' c : Body}

theorem refl (h : b.reachable = true) : Gains loose 0 0 b b := ⟨h, .of_eq rfl, .refl b, rfl⟩

theorem trans (hab : Gains loose m k a b) (hbc : Gains loose m' k' b c) : Gains loose (m + m') (k + k') a c where
  reachable := hbc.reachable
  stack := by simpa using hab.stack.trans hbc.stack
  grows := hab.grows.trans hbc.grows
  labels_size := by rw [hbc.labels_size, hab.labels_size, Nat.add_assoc]

theorem loosen (h : Gains (fun _ => False) m k b b') : Gains loose m k b b' :=
  ⟨h.reachable, h.stack, h.grows.loosen, h.labels_size⟩

theorem call {d : Call} (h : Gains loose m k a b) (hd : Straight n k' d.perform) (hn : n ≤ k)
    (hrun : d.perform b = .ok () b') : Gains loose m (k - n + k') a b' := by
  have hamends : b.Amends b' := by
    have hlast := hd.amending b
    rwa [hrun] at hlast
  have hstack := h.stack.trans (hd.exchanges hrun)
  rw [Nat.sub_eq_zero_of_le hn] at hstack
  exact ⟨hamends.reachable.trans h.reachable, hstack, h.grows.trans (.of_amends hamends),
    by rw [hamends.labels, h.labels_size]⟩

theorem newLabel (h : b.reachable = true) (hloose : loose b.labels.size) (heffect : Call.newLabel.Effect b b') :
    Gains loose 1 0 b b' where
  reachable := by
    obtain rfl := heffect
    exact h
  stack := by
    obtain rfl := heffect
    exact .of_eq rfl
  grows := .of_effect heffect (fun _ => hloose) (by simp [Call.label?])
  labels_size := heffect.labels_size

theorem newLabels (h : b.reachable = true) (hfirst : loose b.labels.size) (hsecond : loose (b.labels.size + 1))
    (hrun : Call.performAll [.newLabel, .newLabel] b = .ok () b') : Gains loose 2 0 b b' := by
  simp only [performAll_cons_eq_ok, performAll_nil_eq_ok, exists_eq_right] at hrun
  obtain ⟨b₁, hrun₁, hrun₂⟩ := hrun
  have h₁ : Gains loose 1 0 b b₁ := newLabel h hfirst (newLabel_behaves.of_ok hrun₁)
  have h₂ : Gains loose 1 0 b₁ b' :=
    newLabel h₁.reachable (by rw [h₁.labels_size]; exact hsecond) (newLabel_behaves.of_ok hrun₂)
  exact h₁.trans h₂

theorem bind (h : b.reachable = true) (hloose : loose label) (heffect : (Call.bind label).Effect b b') :
    Gains loose 0 0 b b' := by
  have hsame : b'.reachable = true ∧ b'.stack = b.stack := by
    obtain ⟨l, -, -, ⟨-, -, rfl⟩ | ⟨hunreachable, -⟩⟩ := heffect
    · exact ⟨h, rfl⟩
    · rw [h] at hunreachable
      cases hunreachable
  exact ⟨hsame.1, .of_eq hsame.2, .of_effect heffect (by simp) (by simp [Call.label?, hloose]), heffect.labels_size⟩

end Gains

end Body

/-! ## Balanced calls -/

/-- The calls, whose first label is `n`, make `made` labels and leave `given` more values on the operand stack. -/
def Balanced (n made given : Nat) (calls : List Call) : Prop :=
  ∀ b b' : Body, b.labels.size = n → b.reachable = true → Call.performAll calls b = .ok () b' →
    Body.Gains (fun _ => False) made given b b'

/-- After the operands of a branch, its label knows the operand stack from before the operands. -/
theorem Call.Effect.branch_stack {condition : Condition} {label : Nat} {a b b' : Body} (hoperands : Body.Exchanges 0 2 a b)
    (h : (Call.branch condition label).Effect b b') :
    b'.reachable = b.reachable ∧ b'.stack = a.stack ∧ ∃ l, b'.labels[label]? = some l ∧ l.stack = some a.stack := by
  obtain ⟨S, popped, l, hsize, hS, hl, -, rfl⟩ := h
  obtain ⟨operands, hoperands, hb⟩ := Body.exchanges_zero.1 hoperands
  obtain ⟨rfl, -⟩ := Array.append_inj' (hS.symm.trans hb) (by rw [hsize, hoperands])
  refine ⟨rfl, rfl, { l.join a.stack b.locals with referenced := true }, ?_, rfl⟩
  simp [Body.branched, Body.added, Array.getElem?_modify, hl]

theorem Call.Effect.bind_stack {label : Nat} {l : Label} {S : Types} {b b' : Body} (h : (Call.bind label).Effect b b')
    (hreach : b.reachable = false) (hl : b.labels[label]? = some l) (hS : l.stack = some S) :
    b'.reachable = true ∧ b'.stack = S := by
  obtain ⟨l', hl', -, ⟨hreach', -⟩ | ⟨-, rfl⟩⟩ := h
  · rw [hreach] at hreach'
    cases hreach'
  · rw [hl] at hl'
    cases hl'
    exact ⟨rfl, by simp [hS]⟩

def Pair (n i : Nat) : Prop := i = n ∨ i = n + 1

section Shapes

variable {loose : Nat → Prop} {n m m' m'' k : Nat}

/-- A branch over some code that ends with a jump elsewhere: where it lands, the operand stack is that from before its
operands. -/
theorem Body.Gains.detour {condition : Condition} {label other : Nat} {inner : List Call} {a b b' : Body}
    (h : Gains loose m 2 a b) (hinner : Balanced b.labels.size m' k inner) (hlt : label < b.labels.size)
    (hne : other ≠ label) (hlabel : loose label) (hother : loose other)
    (hrun : Call.performAll ([Call.branch condition label] ++ inner ++ [Call.jump other, .bind label]) b = .ok () b') :
    Gains loose (m + m') 0 a b' ∧ ∃ p, b'.position? label = some p ∧ a.items.size ≤ p ∧ p ≤ b'.items.size := by
  simp only [performAll_append_eq_ok, performAll_cons_eq_ok, performAll_nil_eq_ok, exists_eq_right] at hrun
  obtain ⟨b₂, ⟨b₁, hbranch, hrun⟩, b₃, hjump, hbind⟩ := hrun
  have hbranch : (Call.branch condition label).Effect b b₁ := (Body.branch_behaves condition label).of_ok hbranch
  have hjump : (Call.jump other).Effect b₂ b₃ := (Body.jump_behaves other).of_ok hjump
  have hbind : (Call.bind label).Effect b₃ b' := (Body.bind_behaves label).of_ok hbind
  have hsize₁ : b₁.labels.size = b.labels.size := hbranch.labels_size
  have hsize₃ : b₃.labels.size = b₂.labels.size := hjump.labels_size
  have hsize' : b'.labels.size = b₃.labels.size := hbind.labels_size
  obtain ⟨hreach₁, hstack₁, l, hl, hknown⟩ := hbranch.branch_stack h.stack
  have hgains := hinner b₁ b₂ hsize₁ (hreach₁.trans h.reachable) hrun
  -- neither the code in between nor the jump touches the label
  have hl₃ : b₃.labels[label]? = some l := by
    have hle := hgains.grows.labels_le
    rw [hjump.labels_other (by omega) (by simpa [Call.label?] using hne), hgains.grows.labels label (by omega) id, hl]
  have hreach₃ : b₃.reachable = false := by
    obtain ⟨_, -, -, rfl⟩ := hjump
    rfl
  obtain ⟨hreach', hstack'⟩ := hbind.bind_stack hreach₃ hl₃ hknown
  have hgrows : Grows loose a b₃ :=
    ((h.grows.trans (.of_effect hbranch (by simp) (by simpa [Call.label?] using hlabel))).trans
      hgains.grows.loosen).trans (.of_effect hjump (by simp) (by simpa [Call.label?] using hother))
  have hgrows' : Grows loose b₃ b' := .of_effect hbind (by simp) (by simpa [Call.label?] using hlabel)
  refine ⟨⟨hreach', .of_eq hstack', hgrows.trans hgrows', ?_⟩, b₃.items.size, hbind.bind_position, hgrows.items_le,
    hgrows'.items_le⟩
  rw [hsize', hsize₃, hgains.labels_size, hsize₁, h.labels_size, Nat.add_assoc]

namespace Balanced

theorem nil : Balanced n 0 0 [] := by
  intro b b' _ hreach hrun
  obtain rfl := performAll_nil_eq_ok.1 hrun
  exact .refl hreach

theorem append {k' : Nat} {first second : List Call} (hfirst : Balanced n m k first)
    (hsecond : Balanced (n + m) m' k' second) : Balanced n (m + m') (k + k') (first ++ second) := by
  intro b b' hn hreach hrun
  obtain ⟨b₁, hrun₁, hrun'⟩ := performAll_append_eq_ok.1 hrun
  have hgains := hfirst b b₁ hn hreach hrun₁
  exact hgains.trans (hsecond b₁ b' (by rw [hgains.labels_size, hn]) hgains.reachable hrun')

theorem call {taken given : Nat} {calls : List Call} (h : Balanced n m k calls) (c : Call)
    (hc : Body.Straight taken given c.perform) (htaken : taken ≤ k) :
    Balanced n m (k - taken + given) (calls ++ [c]) := by
  intro b b' hn hreach hrun
  simp only [performAll_append_eq_ok, performAll_cons_eq_ok, performAll_nil_eq_ok, exists_eq_right] at hrun
  obtain ⟨b₁, hrun, hrun'⟩ := hrun
  exact (h b b₁ hn hreach hrun).call hc htaken hrun'

theorem push (c : Call) (hc : Body.Straight 0 1 c.perform) : Balanced n 0 1 [c] := nil.call c hc (Nat.zero_le 0)

theorem store {calls : List Call} (h : Balanced n m 1 calls) (slot : UInt16) (kind : ValueKind) :
    Balanced n m 0 (calls ++ [Call.store slot kind]) :=
  h.call (.store slot kind) (Body.store_straight slot kind) (Nat.le_refl 1)

theorem choice (condition : Condition) {test elseCalls thenCalls : List Call} (htest : Balanced (n + 2) m 2 test)
    (helse : Balanced (n + 2 + m) m' k elseCalls) (hthen : Balanced (n + 2 + m + m') m'' k thenCalls) :
    Balanced n (2 + (m + m' + m'')) k ([Call.newLabel, .newLabel] ++ test ++
      ([Call.branch condition n] ++ elseCalls ++ [Call.jump (n + 1), .bind n]) ++ thenCalls ++
      [Call.bind (n + 1)]) := by
  intro b b' hn hreach hrun
  obtain ⟨b₅, hrun, hrunBind⟩ := performAll_append_eq_ok.1 hrun
  obtain ⟨b₄, hrun, hrunThen⟩ := performAll_append_eq_ok.1 hrun
  obtain ⟨b₃, hrun, hrunElse⟩ := performAll_append_eq_ok.1 hrun
  obtain ⟨b₂, hrunNew, hrunTest⟩ := performAll_append_eq_ok.1 hrun
  have hbind : (Call.bind (n + 1)).Effect b₅ b' := (Body.bind_behaves (n + 1)).of_ok (by simpa using hrunBind)
  have h₂ : Body.Gains (Pair n) 2 0 b b₂ := .newLabels hreach (.inl hn) (.inr (by rw [hn])) hrunNew
  have h₃ : Body.Gains (Pair n) m 2 b₂ b₃ :=
    (htest b₂ b₃ (by rw [h₂.labels_size, hn]) h₂.reachable hrunTest).loosen
  have hsize₃ : b₃.labels.size = n + 2 + m := by rw [h₃.labels_size, h₂.labels_size, hn]
  obtain ⟨h₄, p, hp, hmin, hmax⟩ := h₃.detour (by rw [hsize₃]; exact helse) (by omega) (by omega) (.inl rfl)
    (.inr rfl) hrunElse
  have hsize₄ : b₄.labels.size = n + 2 + m + m' := by rw [h₄.labels_size, h₂.labels_size, hn, Nat.add_assoc (n + 2)]
  have h₅ : Body.Gains (Pair n) m'' k b₄ b₅ := (hthen b₄ b₅ hsize₄ h₄.reachable hrunThen).loosen
  have h₆ : Body.Gains (Pair n) 0 0 b₅ b' := .bind h₅.reachable (.inr rfl) hbind
  have h := ((h₂.trans h₄).trans h₅).trans h₆
  have hsize := h.labels_size
  have hle₂ := h₂.grows.items_le
  have hle₄ := h₄.grows.items_le
  have hle₅ := h₅.grows.items_le
  have hle₆ := h₆.grows.items_le
  refine ⟨h.reachable, by simpa using h.stack, h.grows.tighten ?_, by omega⟩
  -- The branch finds its label bound by the detour, and the jump finds its own at the end.
  rintro i (rfl | rfl)
  · refine ⟨Nat.le_of_eq hn, p, ?_, by omega, by omega⟩
    exact performAll_position? (performAll_append_eq_ok.2 ⟨b₅, hrunThen, hrunBind⟩) hp
  · exact ⟨by omega, b₅.items.size, hbind.bind_position, by omega, hle₆⟩

theorem loop (condition : Condition) {test body : List Call} (htest : Balanced (n + 2) m 2 test)
    (hbody : Balanced (n + 2 + m) m' 0 body) :
    Balanced n (2 + (m + m')) 0 ([Call.newLabel, .newLabel] ++ [Call.bind n] ++ test ++
      ([Call.branch condition (n + 1)] ++ body ++ [Call.jump n, .bind (n + 1)])) := by
  intro b b' hn hreach hrun
  obtain ⟨b₄, hrun, hrunBody⟩ := performAll_append_eq_ok.1 hrun
  obtain ⟨b₃, hrun, hrunTest⟩ := performAll_append_eq_ok.1 hrun
  obtain ⟨b₂, hrunNew, hrunBind⟩ := performAll_append_eq_ok.1 hrun
  have hbind : (Call.bind n).Effect b₂ b₃ := (Body.bind_behaves n).of_ok (by simpa using hrunBind)
  have h₂ : Body.Gains (Pair n) 2 0 b b₂ := .newLabels hreach (.inl hn) (.inr (by rw [hn])) hrunNew
  have h₃ : Body.Gains (Pair n) 0 0 b₂ b₃ := .bind h₂.reachable (.inl rfl) hbind
  have hsize₃ : b₃.labels.size = n + 2 := by rw [h₃.labels_size, h₂.labels_size, hn]
  have h₄ : Body.Gains (Pair n) m 2 b₃ b₄ := (htest b₃ b₄ hsize₃ h₃.reachable hrunTest).loosen
  have hsize₄ : b₄.labels.size = n + 2 + m := by rw [h₄.labels_size, hsize₃]
  obtain ⟨h₅, p, hp, hmin, hmax⟩ := h₄.detour (by rw [hsize₄]; exact hbody) (by omega) (by omega) (.inr rfl)
    (.inl rfl) hrunBody
  have h := (h₂.trans h₃).trans h₅
  have hsize := h.labels_size
  have hle₂ := h₂.grows.items_le
  have hle₃ := h₃.grows.items_le
  have hle₅ := h₅.grows.items_le
  refine ⟨h.reachable, by simpa using h.stack, h.grows.tighten ?_, by omega⟩
  -- The jump goes back to before the test, and the branch to behind the body.
  rintro i (rfl | rfl)
  · refine ⟨Nat.le_of_eq hn, b₂.items.size, ?_, hle₂, by omega⟩
    exact performAll_position? (performAll_append_eq_ok.2 ⟨b₄, hrunTest, hrunBody⟩) hbind.bind_position
  · exact ⟨by omega, p, hp, by omega, hmax⟩

end Balanced

end Shapes

/-! ## The calls of programs -/

section Programs

variable (find : Lookup) {n : Nat}

theorem variableCalls_balanced (name : String) : Balanced n 0 1 (variableCalls find name) := by
  unfold variableCalls
  split
  · exact .push (.load _ _) (Body.load_straight _ _)
  · exact .push (.pushInt 0) (Body.pushInt_straight 0)

theorem Expr.balanced (e : Expr) (n : Nat) : Balanced n e.labelCount 1 (e.calls find n) := by
  have hnumber : ∀ {n : Nat} (value : Int32), Balanced n 0 1 [.pushInt value] :=
    fun value => .push (.pushInt value) (Body.pushInt_straight value)
  induction e generalizing n with
  | number value => exact hnumber value
  | name x => exact variableCalls_balanced find x
  | paren inner ih => exact ih n
  | arithmetic op left right ihl ihr =>
    exact ((ihl n).append (ihr _)).call (.arithmetic op) (Body.arithmetic_straight op) (Nat.le_refl 2)
  | compare op left right ihl ihr =>
    simpa [Expr.calls, Expr.labelCount] using
      Balanced.choice op.condition ((ihl (n + 2)).append (ihr _)) (hnumber 0) (hnumber 1)

theorem Operand.balanced (o : Operand) : Balanced n 0 1 (o.calls find) := by
  cases o with
  | number value => exact .push (.pushInt value) (Body.pushInt_straight value)
  | name x => exact variableCalls_balanced find x

theorem Test.balanced (t : Test) : Balanced n 0 2 (t.left.calls find ++ t.right.calls find) :=
  (t.left.balanced find).append (t.right.balanced find)

theorem Balanced.print {value : List Call} (h : Balanced n 0 1 value) (type : VarType) :
    Balanced n 0 0 ([Call.getStatic Library.output] ++ value ++ [Call.invokeVirtual (Library.print type)]) := by
  have houtput : Balanced n 0 1 [.getStatic Library.output] := .push _ (Body.getStatic_straight _)
  have hprint : Body.Straight 2 0 (Body.invokeVirtual (Library.print type)) :=
    Body.invokeVirtual_straight ⟨_, Library.print_type type, rfl⟩ Body.pushResult_void
  exact (houtput.append h).call (.invokeVirtual (Library.print type)) hprint (Nat.le_refl 2)

theorem Balanced.getter {calls : List Call} {m : MemberRef} {type : VarType} (h : Balanced n 0 1 calls)
    (hm : JavaType.ofMethodDescriptor? m.descriptor = some ([], Library.javaType type)) :
    Balanced n 0 1 (calls ++ [Call.invokeVirtual m]) := by
  have hget : Body.Straight 1 1 (Body.invokeVirtual m) :=
    Body.invokeVirtual_straight ⟨_, hm, rfl⟩ (Body.pushResult_straight (Library.javaType_ne_void type))
  exact h.call (.invokeVirtual m) hget (Nat.le_refl 1)

theorem readCalls_balanced (className : String) (v : Variable) : Balanced n 0 0 (readCalls className v) := by
  have hconsole : Balanced n 0 1 [.getStatic (Library.console className)] := .push _ (Body.getStatic_straight _)
  have hline := hconsole.getter Library.nextLine_type
  have hparse : Body.Straight 1 1 (Body.invokeStatic Library.parseInt) :=
    Body.invokeStatic_straight ⟨_, Library.parseInt_type, rfl⟩ (Body.pushResult_straight (Library.javaType_ne_void _))
  unfold readCalls
  cases v.type with
  | integer =>
    exact ((hline.getter Library.trim_type).call (.invokeStatic Library.parseInt) hparse (Nat.le_refl 1)).store _ _
  | text => exact hline.store _ _

theorem block_balanced (className : String) (body : List Stmt) :
    ∀ n, Balanced n (blockLabelCount find body) 0 (blockCalls className find body n) := by
  have htext : ∀ {n : Nat} (text : String), Balanced n 0 1 [.pushText text] :=
    fun text => .push (.pushText text) (Body.pushText_straight text)
  -- For every `n`, since each part starts with the labels that the parts before it have left.
  induction body using block_induction
    (P := fun stmt => ∀ n, Balanced n (stmt.labelCount find) 0 (stmt.calls className find n)) with
  | printText text n => exact (htext text).print .text
  | printName name n =>
    simp only [Stmt.calls, Stmt.labelCount]
    cases find name with
    | none => exact .nil
    | some v => exact (Balanced.push (.load _ _) (Body.load_straight _ _)).print v.type
  | read name n =>
    simp only [Stmt.calls, Stmt.labelCount]
    cases find name with
    | none => exact .nil
    | some v => exact readCalls_balanced className v
  | setText name text n =>
    simp only [Stmt.calls, Stmt.labelCount]
    cases find name with
    | none => exact .nil
    | some v => exact (htext text).store _ _
  | setExpr name value n =>
    simp only [Stmt.calls, Stmt.labelCount]
    cases find name with
    | none => exact .nil
    | some v => exact (value.balanced find n).store _ _
  | ifThen test thenBody ih n =>
    simpa [Stmt.calls, Stmt.labelCount, Test.calls] using
      Balanced.choice test.op.condition (test.balanced find) .nil (ih (n + 2))
  | ifElse test thenBody elseBody ihThen ihElse n =>
    simpa [Stmt.calls, Stmt.labelCount, Test.calls] using
      Balanced.choice test.op.condition (test.balanced find) (ihElse (n + 2)) (ihThen _)
  | whileDo test body ih n =>
    simpa [Stmt.calls, Stmt.labelCount, Test.calls] using
      Balanced.loop test.op.condition.negate (test.balanced find) (ih (n + 2))
  | nil => exact fun n => .nil
  | cons stmt rest ihStmt ihRest => exact fun n => (ihStmt n).append (ihRest _)

/-! ### Declarations -/

theorem defaultCalls_balanced (v : Variable) : Balanced n 0 0 (defaultCalls v) := by
  unfold defaultCalls
  cases v.type with
  | integer => exact (Balanced.push (.pushInt 0) (Body.pushInt_straight 0)).store _ _
  | text => exact (Balanced.push (.pushText "") (Body.pushText_straight "")).store _ _

theorem defaultCalls_noLabels (v : Variable) : ∀ c ∈ defaultCalls v, c ≠ .newLabel ∧ c.label? = none := by
  unfold defaultCalls
  cases v.type <;> simp [Call.label?]

theorem defaults_balanced (declared : List Variable) : Balanced n 0 0 (declared.flatMap defaultCalls) := by
  induction declared with
  | nil => exact .nil
  | cons v declared ih => exact (defaultCalls_balanced v).append ih

theorem planDefault_calls (v : Variable) (p : Plan) : (planDefault v p).calls = p.calls ++ defaultCalls v := by
  rw [Plan.calls, ScopeTable.planDefault_actions, callsOf_append, ScopeTable.callsOf_map_call, Plan.calls]

/-- Whatever the scope table is, declarations give new variables their values and do nothing else to the body. -/
theorem planDeclarations_calls (declarations : List Declaration) : ∀ (scope : ScopeTable) (p : Plan),
    ∃ declared : List Variable,
      (planDeclarations scope declarations p).2.calls = p.calls ++ declared.flatMap defaultCalls ∧
        (planDeclarations scope declarations p).2.labels = p.labels := by
  induction declarations with
  | nil => exact fun scope p => ⟨[], by simp [planDeclarations], rfl⟩
  | cons d declarations ih =>
    intro scope p
    rw [planDeclarations]
    split
    · next v scope' _ =>
      obtain ⟨declared, hcalls, hlabels⟩ := ih scope' (planDefault v (p.act (.declare d.name d.type)))
      refine ⟨v :: declared, ?_, ?_⟩
      · rw [hcalls, planDefault_calls]
        simp
      · rw [hlabels, ScopeTable.planDefault_labels]
        rfl
    · next name scope' _ =>
      -- A name that is declared again keeps its variable.
      obtain ⟨declared, hcalls, hlabels⟩ := ih scope' (p.act (.notice (.redeclared name d.type)))
      exact ⟨declared, by simpa using hcalls, hlabels⟩
    · exact ⟨[], by simp, rfl⟩

end Programs

theorem Program.balanced (program : Program) (s : Setting) (p : Plan) (hp : p.calls = []) :
    ∃ made, Balanced p.labels made 0 (program.plan s p).calls ∧
      OwnsLabels p.labels made (program.plan s p).calls := by
  obtain ⟨declared, hcalls, hlabels⟩ := planDeclarations_calls (program.declarations.getD []) s.scope p
  have hplan := planBlock_plan program.body
    { s with scope := (planDeclarations s.scope (program.declarations.getD []) p).1 }
    (planDeclarations s.scope (program.declarations.getD []) p).2
  rw [Program.plan, hplan.2, hcalls, hlabels, hp, List.nil_append]
  have hnone : OwnsLabels p.labels 0 (declared.flatMap defaultCalls) := by
    refine .none fun c hc => ?_
    obtain ⟨v, -, hv⟩ := List.mem_flatMap.1 hc
    exact defaultCalls_noLabels v c hv
  exact ⟨_, (defaults_balanced declared).append (block_balanced _ _ _ _), hnone.append (block_ownsLabels _ _ _ _)⟩

/-! ## Sessions -/

/-- The calls have added code that is complete in itself. Control can reach its end. The items from before, each branch
with the label it goes to, and the labels from before are the same. Each new label has been bound by one call, to a place
in the new code. -/
structure Body.Completes (calls : List Call) (b b' : Body) : Prop where
  reachable : b'.reachable = true
  items : b.items.toList <+: b'.items.toList
  labels : ∀ i, i < b.labels.size → b'.labels[i]? = b.labels[i]?
  bound : ∀ i, b.labels.size ≤ i → i < b'.labels.size → calls.count (.bind i) = 1 ∧
    ∃ p, b'.position? i = some p ∧ b.items.size ≤ p ∧ p ≤ b'.items.size

theorem Balanced.completes {made given : Nat} {calls : List Call} {b b' : Body}
    (h : Balanced b.labels.size made given calls) (howns : OwnsLabels b.labels.size made calls)
    (hreach : b.reachable = true) (hrun : Call.performAll calls b = .ok () b') :
    b.Completes calls b' ∧ Body.Exchanges 0 given b b' := by
  have hgains := h b b' rfl hreach hrun
  refine ⟨⟨hgains.reachable, hgains.grows.items, fun i hi => hgains.grows.labels i hi id, ?_⟩, hgains.stack⟩
  intro i hi hlt
  refine ⟨?_, hgains.grows.bound i hi hlt id⟩
  have hmem := howns.bind_mem i hi (by rw [← hgains.labels_size]; exact hlt)
  have hpos := List.count_pos_iff.2 hmem
  have hle := count_bind_le_one hrun i
  omega

namespace Session

variable {s s' : Session}

theorem completes_of_carryOutAll {p : Plan} {made given : Nat} (hbalanced : Balanced s.body.labels.size made given p.calls)
    (howns : OwnsLabels s.body.labels.size made p.calls) (hreach : s.body.reachable = true)
    (h : carryOutAll p.actions.toList s = .ok () s') :
    s.body.Completes p.calls s'.body ∧ Body.Exchanges 0 given s.body s'.body :=
  hbalanced.completes howns hreach (carryOutAll_eq_ok h).1

theorem emptyPlan_calls (s : Session) : s.emptyPlan.calls = [] := rfl

theorem block_completes (hreach : s.body.reachable = true) {setting : Setting} {body : List Stmt}
    (h : carryOutAll (planBlock setting body s.emptyPlan).actions.toList s = .ok () s') :
    s.body.Completes (planBlock setting body s.emptyPlan).calls s'.body ∧ s'.body.stack = s.body.stack := by
  have hcalls : (planBlock setting body s.emptyPlan).calls =
      blockCalls setting.className setting.scope.lookup? body s.body.labels.size :=
    (planBlock_plan body setting s.emptyPlan).2
  obtain ⟨hcompletes, hstack⟩ := completes_of_carryOutAll (p := planBlock setting body s.emptyPlan)
    (hcalls ▸ block_balanced _ _ body _) (hcalls ▸ block_ownsLabels _ _ body _) hreach h
  exact ⟨hcompletes, hstack.stack_eq⟩

/-- Where control can reach the end of a body, compiling an expression leaves one more value on the operand stack;
compiling statements or a program leaves the operand stack as it was. The code that is added is complete in itself. -/
theorem stack_balanced (hreach : s.body.reachable = true) :
    (∀ e s', compileExpr e s = .ok () s' → s.body.Completes (e.plan s.setting s.emptyPlan).calls s'.body ∧
        ∃ type, s'.body.stack = s.body.stack.push type) ∧
      (∀ body s', compileBlock body s = .ok () s' →
        s.body.Completes (planBlock s.setting body s.emptyPlan).calls s'.body ∧ s'.body.stack = s.body.stack) ∧
      (∀ setting body s', carryOutAll (planBlock setting body s.emptyPlan).actions.toList s = .ok () s' →
        s.body.Completes (planBlock setting body s.emptyPlan).calls s'.body ∧ s'.body.stack = s.body.stack) ∧
      (∀ program s', compileProgram program s = .ok () s' →
        s.body.Completes (program.plan s.setting s.emptyPlan).calls s'.body ∧ s'.body.stack = s.body.stack) := by
  refine ⟨?_, ?_, fun _ _ _ => block_completes hreach, ?_⟩
  · intro e s' h
    rw [compileExpr_planned] at h
    have hcalls : (e.plan s.setting s.emptyPlan).calls = e.calls s.setting.scope.lookup? s.body.labels.size :=
      e.calls_plan s.setting s.emptyPlan
    obtain ⟨hcompletes, hstack⟩ := completes_of_carryOutAll (p := e.plan s.setting s.emptyPlan)
      (hcalls ▸ e.balanced _ _) (hcalls ▸ e.ownsLabels _ _) hreach h
    obtain ⟨pushed, hsize, hstack⟩ := Body.exchanges_zero.1 hstack
    obtain ⟨type, rfl⟩ := Array.size_eq_one_iff.1 hsize
    exact ⟨hcompletes, type, by rw [hstack, Array.push_eq_append]⟩
  · intro body s' h
    rw [compileBlock_planned] at h
    exact block_completes hreach h
  · intro program s' h
    rw [compileProgram_planned] at h
    obtain ⟨made, hbalanced, howns⟩ := program.balanced s.setting s.emptyPlan s.emptyPlan_calls
    obtain ⟨hcompletes, hstack⟩ := completes_of_carryOutAll hbalanced howns hreach h
    exact ⟨hcompletes, hstack.stack_eq⟩

def holding : Session where
  className := "Nested"
  policy := .fatal
  body := { Body.start .empty 0 [] false with stack := #[.integer] }
  scope := .empty
  notices := #[]
  readsInput := false

def nested : Program :=
  ⟨"Nested", none, [.ifThen ⟨.number 1, .less, .number 2⟩ [.whileDo ⟨.number 4, .greater, .number 3⟩ []]]⟩

theorem stack_balanced_nested : holding.body.reachable = true ∧ ∃ s', compileProgram nested holding = .ok () s' ∧
    holding.body.Completes (nested.plan holding.setting holding.emptyPlan).calls s'.body ∧
    s'.body.stack = #[.integer] ∧ s'.body.labels.size = 4 := by
  have hok : ((compileProgram nested).run' holding).isSome = true := by decide +kernel
  have hlabels : (lastState (compileProgram nested holding)).body.labels.size = 4 := by decide +kernel
  cases h : compileProgram nested holding with
  | ok _ s' =>
    rw [h] at hlabels
    obtain ⟨hcompletes, hstack⟩ := (stack_balanced (s := holding) rfl).2.2.2 nested s' h
    exact ⟨rfl, s', rfl, hcompletes, hstack, hlabels⟩
  | error e s' =>
    delta EStateM.run' EStateM.run at hok
    rw [h] at hok
    cases hok

end Session

end KnightCode
