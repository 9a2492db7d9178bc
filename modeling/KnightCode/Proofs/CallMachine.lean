import KnightCode.Proofs.Discipline
import KnightCode.Proofs.Machine

/-!
# Executing calls

The calls on a method body can be executed as they are, with labels in the place of addresses: a jump goes on after the
call that binds its label. A program and its calls behave in the same way; that the calls and the bytes do too is shown
elsewhere.
-/

namespace KnightCode

/-! ## Arithmetic -/

/-- Two's complement arithmetic computes the exact results as far as 32 bits hold them. -/
theorem Arithmetic.compute_eq (op : Arithmetic) (a b : Int32) : op.compute a b = op.value a b := by
  cases op with
  | add => simp [Arithmetic.compute, Arithmetic.value, Arithmetic.exact?, Int32.ofInt_add]
  | sub => simp [Arithmetic.compute, Arithmetic.value, Arithmetic.exact?, Int32.ofInt_sub]
  | mul => simp [Arithmetic.compute, Arithmetic.value, Arithmetic.exact?, Int32.ofInt_mul]
  | div =>
    have hzero : b = 0 ↔ b.toInt = 0 := by rw [← Int32.toInt_inj, Int32.toInt_zero]
    by_cases hb : b = 0
    · simp [Arithmetic.compute, Arithmetic.value, Arithmetic.exact?, hb]
    · have hdiv : a / b = Int32.ofInt (a.toInt.tdiv b.toInt) := by
        rw [← Int32.toInt_inj, Int32.toInt_div, Int32.toInt_ofInt]
      simp [Arithmetic.compute, Arithmetic.value, Arithmetic.exact?, hb, ← hzero, hdiv]

theorem Comparison.condition_holds (op : Comparison) (a b : Int32) :
    op.condition.holds a b = op.holds a.toInt b.toInt := by
  cases op <;> simp [Comparison.condition, Condition.holds, Comparison.holds, Int32.lt_iff_toInt_lt, ← Int32.toInt_inj]

theorem Condition.negate_holds (c : Condition) (a b : Int32) : c.negate.holds a b = !c.holds a b := by
  rw [Bool.eq_iff_iff]
  cases c <;> simp [Condition.negate, Condition.holds, Int32.lt_iff_toInt_lt, Int32.le_iff_toInt_le]

/-! ## The machine -/

structure CallState where
  rest : List Call
  act : Activation

structure CallMachine where
  java : JavaText
  static? : MemberRef → Option Datum
  calls : List Call

def callsAfter (label : Nat) : List Call → Option (List Call)
  | [] => none
  | c :: rest => if c = .bind label then some rest else callsAfter label rest

theorem callsAfter_eq_some {label : Nat} {calls rest : List Call} (h : callsAfter label calls = some rest) :
    ∃ done, calls = done ++ .bind label :: rest := by
  induction calls with
  | nil => cases h
  | cons c calls ih =>
    rw [callsAfter] at h
    split at h
    · next hc =>
      cases h
      exact ⟨[], by rw [hc]; rfl⟩
    · obtain ⟨done, rfl⟩ := ih h
      exact ⟨c :: done, rfl⟩

theorem callsAfter_append {label : Nat} {done : List Call} (rest : List Call) (h : .bind label ∉ done) :
    callsAfter label (done ++ .bind label :: rest) = some rest := by
  induction done with
  | nil => simp [callsAfter]
  | cons c done ih =>
    rw [List.mem_cons, not_or] at h
    rw [List.cons_append, callsAfter, if_neg (Ne.symm h.1), ih h.2]

theorem callsAfter_of_mem {label : Nat} {calls : List Call} (h : .bind label ∈ calls) :
    ∃ rest, callsAfter label calls = some rest := by
  induction calls with
  | nil => cases h
  | cons c calls ih =>
    rw [callsAfter]
    split
    · exact ⟨calls, rfl⟩
    · next hc => exact ih ((List.mem_cons.1 h).resolve_left fun heq => hc heq.symm)

def Call.operate (java : JavaText) (static? : MemberRef → Option Datum) (a : Activation) : Call → Executed
  | .pushInt n => .ok (a.push (.int n), [])
  | .pushText s => .ok (a.push (.text s), [])
  | .load slot kind => a.load kind slot
  | .store slot kind => a.store kind slot
  | .arithmetic op => a.arithmetic op
  | .dup => a.dup
  | .getStatic m => a.push? (static? m)
  | .invokeVirtual m => a.invokeVirtual java m
  | .invokeStatic m => a.invokeStatic java m
  | _ => .error .wrong

namespace CallMachine

def jump (M : CallMachine) (act : Activation) (label : Nat) : Progress CallState :=
  match callsAfter label M.calls with
  | some rest => .go ⟨rest, act⟩ []
  | none => .stop .wrong

def step (M : CallMachine) : Stepping CallState := fun s =>
  match s.rest with
  | [] => .stop .finished
  | .newLabel :: rest | .bind _ :: rest => .go { s with rest } []
  | .jump label :: _ => M.jump s.act label
  | .branch condition label :: rest =>
    match s.act.compare condition with
    | .ok (true, act) => M.jump act label
    | .ok (false, act) => .go ⟨rest, act⟩ []
    | .error outcome => .stop outcome
  | c :: rest =>
    match c.operate M.java M.static? s.act with
    | .ok (act, printed) => .go ⟨rest, act⟩ printed
    | .error outcome => .stop outcome

/-- One step or more lead from one state to the other and print these lines. -/
def Leads (M : CallMachine) (s : CallState) (lines : List String) (t : CallState) : Prop :=
  ∃ n, Stepping.Runs M.step (n + 1) s lines t

variable {M : CallMachine} {s m t : CallState} {lines : List String} {outcome : Outcome}

theorem Leads.of_step (h : M.step s = .go t lines) : M.Leads s lines t := ⟨0, .single h⟩

theorem Leads.after (first : M.Leads s [] m) (second : M.Leads m lines t) : M.Leads s lines t := by
  obtain ⟨n, hn⟩ := first
  obtain ⟨k, hk⟩ := second
  exact ⟨n + 1 + k, hn.trans hk⟩

theorem Leads.ends (first : M.Leads s [] m) (second : Stepping.Ends M.step m lines outcome) :
    Stepping.Ends M.step s lines outcome := by
  obtain ⟨n, hn⟩ := first
  obtain ⟨k, u, hk, hstop⟩ := second
  exact ⟨n + 1 + k, u, hn.trans hk, hstop⟩

theorem ends_of_step (h : M.step s = .stop outcome) : Stepping.Ends M.step s [] outcome := ⟨0, s, .refl s, h⟩

theorem step_operate (M : CallMachine) {call : Call} (hmark : call.isMark = false) (hlabel : call.label? = none)
    (rest : List Call) (act : Activation) :
    M.step ⟨call :: rest, act⟩ =
      match call.operate M.java M.static? act with
      | .ok (act, printed) => .go ⟨rest, act⟩ printed
      | .error outcome => .stop outcome := by
  cases call with
  | newLabel => cases hmark
  | bind label => cases hmark
  | branch condition label => cases hlabel
  | jump label => cases hlabel
  | _ => rfl

theorem step_of_operate {call : Call} {rest : List Call} {act later : Activation} (hmark : call.isMark = false)
    (hlabel : call.label? = none) (h : call.operate M.java M.static? act = .ok (later, lines)) :
    M.step ⟨call :: rest, act⟩ = .go ⟨rest, later⟩ lines := by
  rw [M.step_operate hmark hlabel, h]

theorem Leads.of_operate {call : Call} {rest : List Call} {act later : Activation} (hmark : call.isMark = false)
    (hlabel : call.label? = none) (h : call.operate M.java M.static? act = .ok (later, lines)) :
    M.Leads ⟨call :: rest, act⟩ lines ⟨rest, later⟩ :=
  .of_step (step_of_operate hmark hlabel h)

theorem ends_of_operate {call : Call} {rest : List Call} {act : Activation} (hmark : call.isMark = false)
    (hlabel : call.label? = none) (h : call.operate M.java M.static? act = .error outcome) :
    Stepping.Ends M.step ⟨call :: rest, act⟩ [] outcome := by
  refine ends_of_step ?_
  rw [M.step_operate hmark hlabel, h]

/-! ## Expressions -/

/-- The machine fits a program: no label is bound twice, no two names have one slot, and the static fields are there. -/
structure Suits (M : CallMachine) (className : String) (find : Lookup) : Prop where
  unique : ∀ {done rest : List Call} {label : Nat}, M.calls = done ++ .bind label :: rest → .bind label ∉ done
  slots : ∀ {x y : String} {v w : Variable}, find x = some v → find y = some w → v.slot = w.slot → x = y
  output : M.static? Library.output = some .printStream
  console : .getStatic (Library.console className) ∈ M.calls →
    M.static? (Library.console className) = some .scanner

theorem Suits.jump {className : String} {find : Lookup} (suits : M.Suits className find) {label : Nat}
    {rest : List Call} (h : .bind label :: rest <:+ M.calls) (act : Activation) :
    M.jump act label = .go ⟨rest, act⟩ [] := by
  obtain ⟨done, hdone⟩ := h
  rw [CallMachine.jump, ← hdone, callsAfter_append rest (suits.unique hdone.symm)]

end CallMachine

def Datum.ofValue : Value → Datum
  | .integer n => .int n
  | .text s => .text s

@[simp] theorem Datum.kind_ofValue (v : Value) : (Datum.ofValue v).kind = v.type.kind := by cases v <;> rfl

/-- The local variables hold the values of the declared names. -/
def Activation.Holds (a : Activation) (find : Lookup) (store : Store) : Prop :=
  ∀ x v, find x = some v → ∃ value, store x = some value ∧ a.locals v.slot = some (.ofValue value)

theorem Activation.Holds.push {a : Activation} {find : Lookup} {store : Store} (h : a.Holds find store) (d : Datum) :
    (a.push d).Holds find store := h

namespace CallMachine

variable {M : CallMachine} {className : String} {find : Lookup} {store : Store} {calls rest : List Call}
  {a : Activation}

/-- The calls compute a value, or the run ends. -/
def Computes (M : CallMachine) (calls rest : List Call) (a : Activation) : Except Outcome Value → Prop
  | .ok v => M.Leads ⟨calls ++ rest, a⟩ [] ⟨rest, a.push (.ofValue v)⟩
  | .error outcome => Stepping.Ends M.step ⟨calls ++ rest, a⟩ [] outcome

def ComputesTwo (M : CallMachine) (calls rest : List Call) (a : Activation) : Except Outcome (Int32 × Int32) → Prop
  | .ok (x, y) => M.Leads ⟨calls ++ rest, a⟩ [] ⟨rest, (a.push (.int x)).push (.int y)⟩
  | .error outcome => Stepping.Ends M.step ⟨calls ++ rest, a⟩ [] outcome

theorem ComputesTwo.of_both {first second : List Call} {left right : Except Outcome Value}
    (hleft : (∃ n, left = .ok (.integer n)) ∨ left = .error .divisionByZero)
    (hright : (∃ n, right = .ok (.integer n)) ∨ right = .error .divisionByZero)
    (hfirst : M.Computes first (second ++ rest) a left)
    (hsecond : ∀ x, M.Computes second rest (a.push (.int x)) right) :
    M.ComputesTwo (first ++ second) rest a (integers left right) := by
  obtain ⟨x, rfl⟩ | rfl := hleft
  · have hx : M.Leads ⟨first ++ second ++ rest, a⟩ [] ⟨second ++ rest, a.push (.int x)⟩ := by
      rw [List.append_assoc]
      exact hfirst
    obtain ⟨y, rfl⟩ | rfl := hright
    · exact hx.after (hsecond x)
    · exact hx.ends (hsecond x)
  · rw [show integers (.error .divisionByZero) right = .error .divisionByZero from rfl, ComputesTwo, List.append_assoc]
    exact hfirst

theorem load_leads {x : String} {v : Variable} {value : Value} (typed : store.Typed find.typing)
    (holds : a.Holds find store) (hv : find x = some v) (hvalue : store x = some value) (rest : List Call) :
    M.Leads ⟨.load v.slot v.type.kind :: rest, a⟩ [] ⟨rest, a.push (.ofValue value)⟩ := by
  obtain ⟨value', hvalue', hlocal⟩ := holds x v hv
  obtain rfl : value = value' := by
    rw [hvalue] at hvalue'
    exact Option.some.inj hvalue'
  have htype : value.type = v.type := by
    have hx := typed x
    rw [hvalue, Lookup.typing, hv] at hx
    exact Option.some.inj hx
  have hload : a.load v.type.kind v.slot = .ok (a.push (.ofValue value), []) := by
    simp [Activation.load, hlocal, htype]
  exact .of_operate rfl rfl hload

theorem variable_computes (typed : store.Typed find.typing) (holds : a.Holds find store) {x : String}
    {t : VarType} (hx : find.typing x = some t) (rest : List Call) :
    M.Computes (variableCalls find x) rest a (store.value x) := by
  obtain ⟨value, hresult, hvalue, -⟩ := typed.value hx
  obtain ⟨v, hv, -⟩ := Option.map_eq_some_iff.1 hx
  rw [hresult, variableCalls, hv]
  exact load_leads typed holds hv hvalue rest

theorem branch_leads (suits : M.Suits className find) (condition : Condition) {label : Nat} {target : List Call}
    (hbind : .bind label :: target <:+ M.calls) (rest : List Call) (a : Activation) (x y : Int32) :
    M.Leads ⟨.branch condition label :: rest, (a.push (.int x)).push (.int y)⟩ []
      ⟨if condition.holds x y then target else rest, a⟩ := by
  refine .of_step ?_
  cases h : condition.holds x y with
  | true => simp [step, Activation.compare, Activation.push, h, suits.jump hbind]
  | false => simp [step, Activation.compare, Activation.push, h]

theorem jump_leads (suits : M.Suits className find) {label : Nat} {target : List Call}
    (hbind : .bind label :: target <:+ M.calls) (rest : List Call) (a : Activation) :
    M.Leads ⟨.jump label :: rest, a⟩ [] ⟨target, a⟩ :=
  .of_step (suits.jump hbind a)

theorem labels_lead (rest : List Call) (a : Activation) : M.Leads ⟨.newLabel :: .newLabel :: rest, a⟩ [] ⟨rest, a⟩ :=
  Leads.after (.of_step rfl) (.of_step rfl)

section Operands

variable {left right : Expr}
  (ihl : ∀ (n : Nat) (rest : List Call) (a : Activation), a.Holds find store →
    left.calls find n ++ rest <:+ M.calls → M.Computes (left.calls find n) rest a (left.value store))
  (ihr : ∀ (n : Nat) (rest : List Call) (a : Activation), a.Holds find store →
    right.calls find n ++ rest <:+ M.calls → M.Computes (right.calls find n) rest a (right.value store))
  (hleft : (∃ n, left.value store = .ok (.integer n)) ∨ left.value store = .error .divisionByZero)
  (hright : (∃ n, right.value store = .ok (.integer n)) ∨ right.value store = .error .divisionByZero)
include ihl ihr hleft hright

theorem operands_compute {n k : Nat} (rest : List Call) (holds : a.Holds find store)
    (here : left.calls find n ++ (right.calls find k ++ rest) <:+ M.calls) :
    M.ComputesTwo (left.calls find n ++ right.calls find k) rest a (integers (left.value store) (right.value store)) := by
  have hsecond : right.calls find k ++ rest <:+ M.calls := (List.suffix_append _ _).trans here
  exact .of_both hleft hright (ihl n _ a holds here) fun x => ihr k rest _ (holds.push _) hsecond

theorem arithmetic_computes {op : Arithmetic} {n : Nat} (holds : a.Holds find store)
    (here : (Expr.arithmetic op left right).calls find n ++ rest <:+ M.calls) :
    M.Computes ((Expr.arithmetic op left right).calls find n) rest a ((Expr.arithmetic op left right).value store) := by
  have hcalls : (Expr.arithmetic op left right).calls find n ++ rest =
      (left.calls find n ++ right.calls find (n + left.labelCount)) ++ (.arithmetic op :: rest) := by
    simp [Expr.calls]
  have hboth := operands_compute ihl ihr hleft hright (.arithmetic op :: rest) holds
    (by rw [← List.append_assoc, ← hcalls]; exact here)
  rw [Expr.value]
  obtain ⟨x, y, hxy⟩ | hxy := integers_cases hleft hright
  · rw [hxy] at hboth ⊢
    obtain ⟨n, hn⟩ | hn := op.value_cases x y
    · have hresult : ((a.push (.int x)).push (.int y)).arithmetic op = .ok (a.push (.int n), []) := by
        simp [Activation.arithmetic, Activation.push, Arithmetic.compute_eq, hn]
      simp only [bind, Except.bind, hn, pure, Except.pure, Computes, hcalls]
      exact hboth.after (.of_operate rfl rfl hresult)
    · -- A division by zero ends both.
      have hresult : ((a.push (.int x)).push (.int y)).arithmetic op = .error .divisionByZero := by
        simp [Activation.arithmetic, Activation.push, Arithmetic.compute_eq, hn]
      simp only [bind, Except.bind, hn, Computes, hcalls]
      exact hboth.ends (ends_of_operate rfl rfl hresult)
  · rw [hxy] at hboth ⊢
    simp only [bind, Except.bind, Computes, hcalls]
    exact hboth

theorem compare_computes (suits : M.Suits className find) {op : Comparison} {n : Nat} (holds : a.Holds find store)
    (here : (Expr.compare op left right).calls find n ++ rest <:+ M.calls) :
    M.Computes ((Expr.compare op left right).calls find n) rest a ((Expr.compare op left right).value store) := by
  -- What follows the operands: the branch, then zero, then, at the first label, one.
  let zero := .pushInt 0 :: .jump (n + 1) :: .bind n :: .pushInt 1 :: .bind (n + 1) :: rest
  let tail := .branch op.condition n :: zero
  have hcalls : (Expr.compare op left right).calls find n ++ rest =
      .newLabel :: .newLabel ::
        ((left.calls find (n + 2) ++ right.calls find (n + 2 + left.labelCount)) ++ tail) := by
    simp [Expr.calls, tail, zero]
  have hoperands : left.calls find (n + 2) ++ (right.calls find (n + 2 + left.labelCount) ++ tail) <:+ M.calls :=
    List.IsSuffix.trans ⟨[.newLabel, .newLabel], by rw [hcalls]; simp⟩ here
  have htail : tail <:+ M.calls :=
    ((List.suffix_append _ _).trans (List.suffix_append _ _)).trans hoperands
  have hyes : .bind n :: .pushInt 1 :: .bind (n + 1) :: rest <:+ M.calls :=
    List.IsSuffix.trans ⟨[.branch op.condition n, .pushInt 0, .jump (n + 1)], rfl⟩ htail
  have hdone : .bind (n + 1) :: rest <:+ M.calls := List.IsSuffix.trans ⟨[.bind n, .pushInt 1], rfl⟩ hyes
  have hboth := operands_compute ihl ihr hleft hright tail holds hoperands
  rw [Expr.value]
  obtain ⟨x, y, hxy⟩ | hxy := integers_cases hleft hright
  · rw [hxy] at hboth ⊢
    have hbranch := branch_leads suits op.condition hyes zero a x y
    have hstart := ((labels_lead _ a).after hboth).after hbranch
    rw [Comparison.condition_holds] at hstart
    simp only [bind, Except.bind, pure, Except.pure, Computes, hcalls]
    cases hholds : op.holds x.toInt y.toInt with
    | true =>
      rw [hholds] at hstart
      exact hstart.after (Leads.after (.of_step rfl) (.of_step rfl))
    | false =>
      rw [hholds] at hstart
      exact hstart.after (Leads.after (.of_step rfl) (jump_leads suits hdone _ _))
  · rw [hxy] at hboth ⊢
    simp only [bind, Except.bind, Computes, hcalls]
    exact (labels_lead _ a).ends hboth

end Operands

theorem expr_computes (suits : M.Suits className find) (typed : store.Typed find.typing) (e : Expr)
    (he : e.isInteger find.typing = true) (n : Nat) (rest : List Call) (a : Activation) (holds : a.Holds find store)
    (here : e.calls find n ++ rest <:+ M.calls) : M.Computes (e.calls find n) rest a (e.value store) := by
  induction e generalizing n rest a with
  | number value => exact .of_step rfl
  | name x => exact variable_computes typed holds (by simpa [Expr.isInteger] using he) rest
  | paren inner ih => exact ih he n rest a holds here
  | arithmetic op left right ihl ihr =>
    simp only [Expr.isInteger, Bool.and_eq_true] at he
    exact arithmetic_computes (ihl he.1) (ihr he.2) (left.value_integer typed he.1) (right.value_integer typed he.2)
      holds here
  | compare op left right ihl ihr =>
    simp only [Expr.isInteger, Bool.and_eq_true] at he
    exact compare_computes (ihl he.1) (ihr he.2) (left.value_integer typed he.1) (right.value_integer typed he.2)
      suits holds here

theorem text_computes (typed : store.Typed find.typing) (holds : a.Holds find store) (e : Expr)
    (he : e.isText find.typing = true) (n : Nat) (rest : List Call) :
    M.Computes (e.calls find n) rest a (e.value store) := by
  induction e with
  | name x => exact variable_computes typed holds (by simpa [Expr.isText] using he) rest
  | paren inner ih => exact ih he
  | _ => cases he

end CallMachine

end KnightCode
