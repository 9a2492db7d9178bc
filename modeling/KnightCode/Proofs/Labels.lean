import KnightCode.Proofs.Runs
import KnightCode.Proofs.Translation

/-!
# The labels of the calls

A piece of a program whose first label is `n` makes its labels itself, binds each of them and goes to no others.
-/

namespace KnightCode

/-- The calls make `count` labels, the first of which is `n`, bind them all and go to no others. -/
structure OwnsLabels (n count : Nat) (calls : List Call) : Prop where
  count_newLabel : calls.count .newLabel = count
  label_range : ∀ c ∈ calls, ∀ i, c.label? = some i → n ≤ i ∧ i < n + count
  bind_mem : ∀ i, n ≤ i → i < n + count → .bind i ∈ calls

namespace OwnsLabels

variable {n k k' : Nat} {first second calls all : List Call}

theorem none (h : ∀ c ∈ calls, c ≠ .newLabel ∧ c.label? = Option.none) : OwnsLabels n 0 calls where
  count_newLabel := List.count_eq_zero.2 fun hmem => (h _ hmem).1 rfl
  label_range := by
    intro c hc i hi
    rw [(h c hc).2] at hi
    cases hi
  bind_mem := by omega

theorem append (hfirst : OwnsLabels n k first) (hsecond : OwnsLabels (n + k) k' second) :
    OwnsLabels n (k + k') (first ++ second) where
  count_newLabel := by rw [List.count_append, hfirst.count_newLabel, hsecond.count_newLabel]
  label_range := by
    intro c hc i hi
    rcases List.mem_append.1 hc with hc | hc
    · have := hfirst.label_range c hc i hi
      omega
    · have := hsecond.label_range c hc i hi
      omega
  bind_mem := by
    intro i hn hlt
    rcases Nat.lt_or_ge i (n + k) with hik | hik
    · exact List.mem_append_left _ (hfirst.bind_mem i hn hik)
    · exact List.mem_append_right _ (hsecond.bind_mem i hik (by omega))

theorem append_none (hfirst : OwnsLabels n k first) (h : ∀ c ∈ second, c ≠ .newLabel ∧ c.label? = Option.none) :
    OwnsLabels n k (first ++ second) :=
  hfirst.append (none h)

theorem around (inner : OwnsLabels (n + 2) k calls) (hcount : all.count .newLabel = 2 + calls.count .newLabel)
    (hall : ∀ c ∈ all, c ∈ calls ∨ ∀ i, c.label? = some i → i = n ∨ i = n + 1) (hsub : ∀ c ∈ calls, c ∈ all)
    (hbind : .bind n ∈ all) (hbind' : .bind (n + 1) ∈ all) : OwnsLabels n (2 + k) all where
  count_newLabel := by rw [hcount, inner.count_newLabel]
  label_range := by
    intro c hc i hi
    rcases hall c hc with hc | hc
    · have := inner.label_range c hc i hi
      omega
    · have := hc i hi
      omega
  bind_mem := by
    intro i hn hlt
    rcases Nat.lt_or_ge i (n + 2) with hi | hi
    · obtain rfl | rfl : i = n ∨ i = n + 1 := by omega
      · exact hbind
      · exact hbind'
    · exact hsub _ (inner.bind_mem i hi (by omega))

end OwnsLabels

theorem variableCalls_noLabels (find : Lookup) (name : String) :
    ∀ c ∈ variableCalls find name, c ≠ .newLabel ∧ c.label? = none := by
  unfold variableCalls
  cases find name <;> simp [Call.label?]

theorem Operand.calls_noLabels (find : Lookup) (o : Operand) : ∀ c ∈ o.calls find, c ≠ .newLabel ∧ c.label? = none := by
  cases o with
  | number value => simp [Operand.calls, Call.label?]
  | name x => exact variableCalls_noLabels find x

theorem Expr.ownsLabels (find : Lookup) (e : Expr) (n : Nat) : OwnsLabels n e.labelCount (e.calls find n) := by
  induction e generalizing n with
  | number value => exact .none (by simp [Expr.calls, Call.label?])
  | name x => exact .none (variableCalls_noLabels find x)
  | paren inner ih => exact ih n
  | arithmetic op left right ihl ihr =>
    exact ((ihl n).append (ihr _)).append_none (by simp [Call.label?])
  | compare op left right ihl ihr =>
    -- Two labels are made before the operands, so these own labels from `n + 2` on.
    refine ((ihl (n + 2)).append (ihr _)).around ?_ ?_ ?_ ?_ ?_
    · simp [Expr.calls]
      omega
    · intro c hc
      simp only [Expr.calls, List.mem_append, List.mem_cons, List.not_mem_nil, or_false] at hc ⊢
      grind [Call.label?]
    · intro c hc
      simp only [Expr.calls, List.mem_append] at hc ⊢
      grind
    · simp [Expr.calls]
    · simp [Expr.calls]

theorem Test.label_of_mem_calls {find : Lookup} {t : Test} {condition : Condition} {label : Nat} {c : Call}
    (hc : c ∈ t.calls find condition label) : c ≠ .newLabel ∧ ∀ i, c.label? = some i → i = label := by
  simp only [Test.calls, List.mem_append, List.mem_singleton] at hc
  rcases hc with (hc | hc) | rfl
  · obtain ⟨hnew, hlabel⟩ := t.left.calls_noLabels find c hc
    exact ⟨hnew, by simp [hlabel]⟩
  · obtain ⟨hnew, hlabel⟩ := t.right.calls_noLabels find c hc
    exact ⟨hnew, by simp [hlabel]⟩
  · simp [Call.label?, eq_comm]

@[simp] theorem Test.count_newLabel (find : Lookup) (t : Test) (condition : Condition) (label : Nat) :
    (t.calls find condition label).count .newLabel = 0 :=
  List.count_eq_zero.2 fun hmem => (Test.label_of_mem_calls hmem).1 rfl

theorem OwnsLabels.test (find : Lookup) (t : Test) (condition : Condition) (marks : List Call) {label n k : Nat}
    {calls all : List Call} (inner : OwnsLabels (n + 2) k calls) (hlabel : label = n ∨ label = n + 1)
    (hperm : all.Perm (marks ++ t.calls find condition label ++ calls)) (hcount : marks.count .newLabel = 2)
    (hmarks : ∀ c ∈ marks, ∀ i, c.label? = some i → i = n ∨ i = n + 1) (hbind : .bind n ∈ marks)
    (hbind' : .bind (n + 1) ∈ marks) : OwnsLabels n (2 + k) all := by
  refine inner.around ?_ ?_ ?_ ?_ ?_
  · simp [hperm.count_eq, hcount]
  · intro c hc
    rw [hperm.mem_iff, List.mem_append, List.mem_append] at hc
    rcases hc with (hc | hc) | hc
    · exact .inr (hmarks c hc)
    · refine .inr fun i hi => ?_
      rw [(Test.label_of_mem_calls hc).2 i hi]
      exact hlabel
    · exact .inl hc
  · intro c hc
    exact hperm.mem_iff.2 (List.mem_append_right _ hc)
  · exact hperm.mem_iff.2 (List.mem_append_left _ (List.mem_append_left _ hbind))
  · exact hperm.mem_iff.2 (List.mem_append_left _ (List.mem_append_left _ hbind'))

theorem ownsLabels_elim (find : Lookup) (name : String) (n : Nat) {calls : Variable → List Call}
    (h : ∀ v, ∀ c ∈ calls v, c ≠ .newLabel ∧ c.label? = none) : OwnsLabels n 0 ((find name).elim [] calls) := by
  cases find name with
  | none => exact .none (by simp)
  | some v => exact .none (h v)

theorem block_ownsLabels (className : String) (find : Lookup) (body : List Stmt) :
    ∀ n, OwnsLabels n (blockLabelCount find body) (blockCalls className find body n) := by
  -- The branch of a test and its marks use the two labels that are made first, and the parts own the rest.
  induction body using block_induction
    (P := fun stmt => ∀ n, OwnsLabels n (stmt.labelCount find) (stmt.calls className find n)) with
  | printText text n => exact .none (by simp [Stmt.calls, Call.label?])
  | printName name n => exact ownsLabels_elim find name n (by simp [printCalls, Call.label?])
  | read name n =>
    refine ownsLabels_elim find name n fun v => ?_
    cases h : v.type <;> simp [readCalls, convertCalls, h, Call.label?]
  | setText name text n => exact ownsLabels_elim find name n (by simp [Call.label?])
  | setExpr name value n =>
    simp only [Stmt.calls, Stmt.labelCount]
    cases find name with
    | none => exact .none (by simp)
    | some v => exact (value.ownsLabels find n).append_none (by simp [Call.label?])
  | ifThen test thenBody ih n =>
    refine OwnsLabels.test find test test.op.condition [.newLabel, .newLabel, .jump (n + 1), .bind n, .bind (n + 1)]
      (ih (n + 2)) (.inl rfl) ?_ rfl (by simp [Call.label?]) (by simp) (by simp)
    simp [List.perm_iff_count, Stmt.calls, List.count_cons]
    omega
  | ifElse test thenBody elseBody ihThen ihElse n =>
    refine OwnsLabels.test find test test.op.condition [.newLabel, .newLabel, .jump (n + 1), .bind n, .bind (n + 1)]
      ((ihElse (n + 2)).append (ihThen _)) (.inl rfl) ?_ rfl (by simp [Call.label?]) (by simp) (by simp)
    simp [List.perm_iff_count, Stmt.calls, List.count_cons]
    omega
  | whileDo test body ih n =>
    refine OwnsLabels.test find test test.op.condition.negate [.newLabel, .newLabel, .bind n, .jump n, .bind (n + 1)]
      (ih (n + 2)) (.inr rfl) ?_ rfl (by simp [Call.label?]) (by simp) (by simp)
    simp [List.perm_iff_count, Stmt.calls, List.count_cons]
    omega
  | nil => exact fun n => .none (by simp [blockCalls])
  | cons stmt rest ihStmt ihRest => exact fun n => (ihStmt n).append (ihRest _)

theorem Stmt.ownsLabels (className : String) (find : Lookup) (stmt : Stmt) (n : Nat) :
    OwnsLabels n (stmt.labelCount find) (stmt.calls className find n) := by
  simpa [blockCalls, blockLabelCount] using block_ownsLabels className find [stmt] n

end KnightCode
