import KnightCode.Proofs.CallMachine

/-!
# Programs and their calls

Every step of a program is matched by steps of the machine that executes its calls. The statements that are left
correspond to the calls that are left, although a jump may stand between them; `Ahead` says how.
-/

namespace KnightCode

namespace Activation

variable {a : Activation} {java : JavaText}

theorem invokeVirtual_print (type : VarType) :
    a.invokeVirtual java (Library.print type) =
      match type with
      | .integer => a.printlnInt java
      | .text => a.printlnText := by
  cases type with
  | integer => rfl
  | text => rw [invokeVirtual, if_neg (by decide)]; rfl

theorem invokeVirtual_nextLine : a.invokeVirtual java Library.nextLine = a.nextLine := by
  rw [invokeVirtual, if_neg (by decide), if_neg (by decide)]
  rfl

theorem invokeVirtual_trim : a.invokeVirtual java Library.trim = a.trim java := by
  rw [invokeVirtual, if_neg (by decide), if_neg (by decide), if_neg (by decide)]
  rfl

theorem invokeStatic_parseInt : a.invokeStatic java Library.parseInt = a.parseInt java := rfl

end Activation

namespace CallMachine

variable {M : CallMachine} {className : String} {find : Lookup}

/-! ## What is left to do -/

def loopCalls (className : String) (find : Lookup) (test : Test) (body : List Stmt) (n : Nat) : List Call :=
  test.calls find test.op.condition.negate (n + 1) ++ blockCalls className find body (n + 2) ++
    [.jump n, .bind (n + 1)]

/-- Executing the calls amounts to executing the statements. -/
inductive Ahead (M : CallMachine) (className : String) (find : Lookup) : List Stmt → List Call → Prop
  | done : Ahead M className find [] []
  | stmt {stmt : Stmt} {todo : List Stmt} {rest : List Call} (n : Nat) (tail : Ahead M className find todo rest) :
      Ahead M className find (stmt :: todo) (stmt.calls className find n ++ rest)
  | loop {test : Test} {body todo : List Stmt} {rest : List Call} {n : Nat}
      (again : .bind n :: (loopCalls className find test body n ++ rest) <:+ M.calls)
      (tail : Ahead M className find todo rest) :
      Ahead M className find (.whileDo test body :: todo) (loopCalls className find test body n ++ rest)
  | bind {todo : List Stmt} {rest : List Call} (label : Nat) (tail : Ahead M className find todo rest) :
      Ahead M className find todo (.bind label :: rest)
  | jump {todo : List Stmt} {rest : List Call} {label : Nat} (other : List Call)
      (target : .bind label :: rest <:+ M.calls) (tail : Ahead M className find todo rest) :
      Ahead M className find todo (.jump label :: other)

theorem Ahead.block {todo : List Stmt} {rest : List Call} (h : M.Ahead className find todo rest) (body : List Stmt)
    (n : Nat) : M.Ahead className find (body ++ todo) (blockCalls className find body n ++ rest) := by
  induction body generalizing n with
  | nil => exact h
  | cons stmt body ih =>
    rw [blockCalls, List.append_assoc]
    exact .stmt n (ih _)

/-- The program and the machine are at the same point. -/
structure Related (M : CallMachine) (className : String) (find : Lookup) (s : Situation) (t : CallState) : Prop where
  ahead : M.Ahead className find s.todo t.rest
  here : t.rest <:+ M.calls
  stack : t.act.stack = []
  holds : t.act.Holds find s.store
  input : t.act.input = s.input

/-- From a state, the machine does what the program does. -/
def Matches (M : CallMachine) (className : String) (find : Lookup) (t : CallState) : Progress Situation → Prop
  | .go s lines => ∃ t', M.Leads t lines t' ∧ M.Related className find s t'
  | .stop outcome => Stepping.Ends M.step t [] outcome

theorem Matches.after {t m : CallState} {p : Progress Situation} (first : M.Leads t [] m)
    (h : M.Matches className find m p) : M.Matches className find t p := by
  cases p with
  | go s lines =>
    obtain ⟨t', hlead, hrelated⟩ := h
    exact ⟨t', first.after hlead, hrelated⟩
  | stop outcome => exact first.ends h

/-! ## Simple statements -/

theorem output_leads (suits : M.Suits className find) (rest : List Call) (a : Activation) :
    M.Leads ⟨.getStatic Library.output :: rest, a⟩ [] ⟨rest, a.push .printStream⟩ := by
  have hpush : a.push? (M.static? Library.output) = .ok (a.push .printStream, []) := by
    rw [suits.output]
    rfl
  exact .of_operate rfl rfl hpush

theorem print_leads (value : Value) (rest : List Call) (a : Activation) :
    M.Leads ⟨.invokeVirtual (Library.print value.type) :: rest, (a.push .printStream).push (.ofValue value)⟩
      [M.java.spell value] ⟨rest, a⟩ := by
  have hprint : ((a.push .printStream).push (.ofValue value)).invokeVirtual M.java (Library.print value.type) =
      .ok (a, [M.java.spell value]) := by
    rw [Activation.invokeVirtual_print]
    cases value <;> rfl
  exact .of_operate rfl rfl hprint

section Simple

variable {s : Situation} {rest : List Call} {a : Activation} (suits : M.Suits className find)
  (base : M.Related className find s ⟨rest, a⟩)
include suits base

theorem assign_matches {x : String} {v : Variable} {value : Value} (hv : find x = some v)
    (htype : value.type = v.type) :
    M.Matches className find ⟨.store v.slot v.type.kind :: rest, a.push (.ofValue value)⟩
      (s.assign find.typing x value) := by
  have hx : find.typing x = some value.type := by rw [Lookup.typing, hv, htype]; rfl
  rw [Situation.assign, if_pos hx]
  let later : Activation := { a with locals := fun slot => if slot = v.slot then some (.ofValue value) else a.locals slot }
  have hstore : (a.push (.ofValue value)).store v.type.kind v.slot = .ok (later, []) := by
    simp [Activation.store, Activation.push, htype, later]
  refine ⟨_, .of_operate rfl rfl hstore, base.ahead, base.here, base.stack, ?_, base.input⟩
  intro y w hw
  -- Different variables have different slots, so only one local variable changes.
  by_cases hy : y = x
  · subst hy
    obtain rfl : v = w := by
      rw [hv] at hw
      exact Option.some.inj hw
    exact ⟨value, if_pos rfl, if_pos rfl⟩
  · obtain ⟨value', hvalue', hlocal⟩ := base.holds y w hw
    have hslot : w.slot ≠ v.slot := fun heq => hy (suits.slots hw hv heq)
    exact ⟨value', (if_neg hy).trans hvalue', (if_neg hslot).trans hlocal⟩

theorem printText_matches (text : String) (n : Nat) :
    M.Matches className find ⟨(Stmt.printText text).calls className find n ++ rest, a⟩ (.go s [text]) := by
  have hpush : M.Leads ⟨.pushText text :: .invokeVirtual Library.printText :: rest, a.push .printStream⟩ []
      ⟨.invokeVirtual Library.printText :: rest, (a.push .printStream).push (.text text)⟩ := .of_step rfl
  exact ⟨_, ((output_leads suits _ a).after hpush).after (print_leads (.text text) rest a), base⟩

theorem printName_matches (typed : s.store.Typed find.typing) {x : String} {v : Variable} (hv : find x = some v)
    (n : Nat) :
    M.Matches className find ⟨(Stmt.printName x).calls className find n ++ rest, a⟩
      (s.execute M.java find.typing (.printName x)) := by
  have hx : find.typing x = some v.type := by rw [Lookup.typing, hv]; rfl
  obtain ⟨value, hresult, hvalue, htype⟩ := typed.value hx
  have hload := load_leads (M := M) typed (base.holds.push .printStream) hv hvalue
    (.invokeVirtual (Library.print v.type) :: rest)
  have hprint := print_leads (M := M) value rest a
  rw [htype] at hprint
  rw [Situation.execute, hresult, Stmt.calls, hv]
  exact ⟨_, ((output_leads suits _ a).after hload).after hprint, base⟩

theorem convert_matches {x : String} {v : Variable} (hv : find x = some v) (line : String) :
    M.Matches className find ⟨convertCalls v.type ++ .store v.slot v.type.kind :: rest, a.push (.text line)⟩
      (match M.java.valueOf line v.type with
      | some value => s.assign find.typing x value
      | none => .stop .badInput) := by
  cases htype : v.type with
  | text =>
    have hassign := assign_matches suits base hv (show (Value.text line).type = v.type from htype.symm)
    rw [htype] at hassign
    exact hassign
  | integer =>
    have htrim : M.Leads ⟨.invokeVirtual Library.trim :: .invokeStatic Library.parseInt ::
        .store v.slot VarType.integer.kind :: rest, a.push (.text line)⟩ []
        ⟨.invokeStatic Library.parseInt :: .store v.slot VarType.integer.kind :: rest,
          a.push (.text (M.java.trim line))⟩ := by
      have htrimmed : (a.push (.text line)).invokeVirtual M.java Library.trim =
          .ok (a.push (.text (M.java.trim line)), []) := by
        rw [Activation.invokeVirtual_trim]
        rfl
      exact .of_operate rfl rfl htrimmed
    refine .after htrim ?_
    rw [JavaText.valueOf]
    cases hn : M.java.parse (M.java.trim line) with
    | none =>
      have hparsed : (a.push (.text (M.java.trim line))).invokeStatic M.java Library.parseInt = .error .badInput := by
        simp [Activation.invokeStatic_parseInt, Activation.parseInt, Activation.push, hn]
      exact ends_of_operate rfl rfl hparsed
    | some n =>
      have hparsed : (a.push (.text (M.java.trim line))).invokeStatic M.java Library.parseInt =
          .ok (a.push (.int n), []) := by
        simp [Activation.invokeStatic_parseInt, Activation.parseInt, Activation.push, hn]
      have hassign := assign_matches suits base hv (show (Value.integer n).type = v.type from htype.symm)
      rw [htype] at hassign
      exact .after (.of_operate rfl rfl hparsed) hassign

theorem read_matches {x : String} {v : Variable} (hv : find x = some v) {n : Nat}
    (here : (Stmt.read x).calls className find n ++ rest <:+ M.calls) :
    M.Matches className find ⟨(Stmt.read x).calls className find n ++ rest, a⟩
      (s.readLine M.java find.typing x) := by
  let tail := convertCalls v.type ++ .store v.slot v.type.kind :: rest
  have hcalls : (Stmt.read x).calls className find n ++ rest =
      .getStatic (Library.console className) :: .invokeVirtual Library.nextLine :: tail := by
    simp [Stmt.calls, hv, readCalls, tail]
  rw [hcalls] at here ⊢
  have hconsole : M.Leads ⟨.getStatic (Library.console className) :: .invokeVirtual Library.nextLine :: tail, a⟩ []
      ⟨.invokeVirtual Library.nextLine :: tail, a.push .scanner⟩ := by
    have hpush : a.push? (M.static? (Library.console className)) = .ok (a.push .scanner, []) := by
      rw [suits.console (here.subset (.head _))]
      rfl
    exact .of_operate rfl rfl hpush
  have hx : find.typing x = some v.type := by rw [Lookup.typing, hv]; rfl
  refine .after hconsole ?_
  have hinput : a.input = s.input := base.input
  rw [Situation.readLine, hx]
  cases hs : s.input with
  | nil =>
    have hnext : (a.push .scanner).invokeVirtual M.java Library.nextLine = .error .badInput := by
      simp [Activation.invokeVirtual_nextLine, Activation.nextLine, Activation.push, hinput, hs]
    exact ends_of_operate rfl rfl hnext
  | cons line input =>
    have hnext : (a.push .scanner).invokeVirtual M.java Library.nextLine =
        .ok ({ a with input }.push (.text line), []) := by
      simp [Activation.invokeVirtual_nextLine, Activation.nextLine, Activation.push, hinput, hs]
    have hbase : M.Related className find { s with input } ⟨rest, { a with input }⟩ :=
      ⟨base.ahead, base.here, base.stack, base.holds, rfl⟩
    exact .after (.of_operate rfl rfl hnext) (convert_matches suits hbase hv line)

theorem setText_matches {x : String} {v : Variable} (hv : find x = some v) (htype : v.type = .text) (text : String)
    (n : Nat) :
    M.Matches className find ⟨(Stmt.setText x text).calls className find n ++ rest, a⟩
      (s.assign find.typing x (.text text)) := by
  rw [Stmt.calls, hv]
  exact .after (.of_step rfl) (assign_matches suits base hv (show (Value.text text).type = v.type from htype.symm))

theorem setExpr_matches (typed : s.store.Typed find.typing) {x : String} {v : Variable} {e : Expr}
    (hv : find x = some v) (he : e.hasType find.typing v.type = true) {n : Nat}
    (here : (Stmt.setExpr x e).calls className find n ++ rest <:+ M.calls) :
    M.Matches className find ⟨(Stmt.setExpr x e).calls className find n ++ rest, a⟩
      (s.execute M.java find.typing (.setExpr x e)) := by
  have hcalls : (Stmt.setExpr x e).calls className find n ++ rest =
      e.calls find n ++ .store v.slot v.type.kind :: rest := by
    simp [Stmt.calls, hv]
  rw [hcalls] at here ⊢
  have hcomputes : M.Computes (e.calls find n) (.store v.slot v.type.kind :: rest) a (e.value s.store) := by
    cases htype : v.type with
    | integer =>
      rw [htype] at he here
      exact expr_computes suits typed e he n _ a base.holds here
    | text =>
      rw [htype] at he
      exact text_computes typed base.holds e he n _
  rw [Situation.execute]
  obtain ⟨value, hvalue, htype⟩ | hvalue := e.value_cases typed he
  · rw [hvalue] at hcomputes ⊢
    exact .after hcomputes (assign_matches suits base hv htype)
  · rw [hvalue] at hcomputes ⊢
    exact hcomputes

end Simple

/-! ## Tests, choices and loops -/

theorem operand_leads {store : Store} {a : Activation} (typed : store.Typed find.typing)
    (holds : a.Holds find store) {o : Operand} (ho : o.isInteger find.typing = true) {n : Int32}
    (hn : o.value store = .ok n) (rest : List Call) :
    M.Leads ⟨o.calls find ++ rest, a⟩ [] ⟨rest, a.push (.int n)⟩ := by
  cases o with
  | number value =>
    cases hn
    exact .of_step rfl
  | name x =>
    have hx : find.typing x = some .integer := by simpa [Operand.isInteger] using ho
    have hcomputes := variable_computes (M := M) typed holds hx rest
    obtain ⟨value, hvalue, -, htype⟩ := typed.value hx
    obtain ⟨k, rfl, -⟩ := Value.integer?_of_type htype
    rw [Operand.value, hvalue] at hn
    cases hn
    rw [hvalue] at hcomputes
    exact hcomputes

section Control

variable {s : Situation} {rest : List Call} {a : Activation} (suits : M.Suits className find)
  (typed : s.store.Typed find.typing) (base : M.Related className find s ⟨rest, a⟩)
  {test : Test} (htest : test.wellTyped find.typing = true)
include suits typed base htest

theorem test_leads (condition : Condition) {label : Nat} {target : List Call}
    (hbind : .bind label :: target <:+ M.calls) (next : List Call) :
    ∃ x y : Int32, test.holds s.store = .ok (test.op.holds x.toInt y.toInt) ∧
      M.Leads ⟨test.calls find condition label ++ next, a⟩ []
        ⟨if condition.holds x y then target else next, a⟩ := by
  obtain ⟨x, y, hx, hy, hholds⟩ := test.holds_cases typed htest
  simp only [Test.wellTyped, Bool.and_eq_true] at htest
  have hleft := operand_leads (M := M) typed base.holds htest.1 hx
    (test.right.calls find ++ .branch condition label :: next)
  have hright := operand_leads (M := M) typed (base.holds.push (.int x)) htest.2 hy (.branch condition label :: next)
  refine ⟨x, y, hholds, ?_⟩
  rw [Test.calls, List.append_assoc, List.append_assoc]
  exact (hleft.after hright).after (branch_leads suits condition hbind next a x y)

theorem ifElse_matches {thenBody elseBody : List Stmt} {n : Nat}
    (here : (Stmt.ifElse test thenBody elseBody).calls className find n ++ rest <:+ M.calls) :
    M.Matches className find ⟨(Stmt.ifElse test thenBody elseBody).calls className find n ++ rest, a⟩
      (s.choose test thenBody elseBody) := by
  -- The `ELSE` part stands first and jumps over the other one.
  let yes := blockCalls className find thenBody (n + 2 + blockLabelCount find elseBody) ++ .bind (n + 1) :: rest
  let no := blockCalls className find elseBody (n + 2) ++ .jump (n + 1) :: .bind n :: yes
  have hcalls : (Stmt.ifElse test thenBody elseBody).calls className find n ++ rest =
      .newLabel :: .newLabel :: (test.calls find test.op.condition n ++ no) := by
    simp [Stmt.calls, yes, no]
  rw [hcalls] at here ⊢
  have hno : no <:+ M.calls :=
    (List.suffix_append _ _).trans (List.IsSuffix.trans ⟨[.newLabel, .newLabel], rfl⟩ here)
  have hyes : .bind n :: yes <:+ M.calls :=
    List.IsSuffix.trans ⟨blockCalls className find elseBody (n + 2) ++ [Call.jump (n + 1)], by simp [no]⟩ hno
  have hdone : .bind (n + 1) :: rest <:+ M.calls :=
    (List.suffix_append _ _).trans ((List.suffix_cons _ _).trans hyes)
  obtain ⟨x, y, hholds, hleads⟩ := test_leads suits typed base htest test.op.condition hyes no
  rw [Comparison.condition_holds] at hleads
  refine .after (labels_lead _ a) ?_
  rw [Situation.choose, hholds]
  cases hop : test.op.holds x.toInt y.toInt with
  | true =>
    rw [hop] at hleads
    have hahead := (Ahead.bind (n + 1) base.ahead).block thenBody (n + 2 + blockLabelCount find elseBody)
    exact ⟨_, hleads, hahead, (List.suffix_cons _ _).trans hyes, base.stack, base.holds, base.input⟩
  | false =>
    rw [hop] at hleads
    have hahead := (Ahead.jump (.bind n :: yes) hdone base.ahead).block elseBody (n + 2)
    exact ⟨_, hleads, hahead, hno, base.stack, base.holds, base.input⟩

theorem loop_matches {body : List Stmt} {n : Nat}
    (again : .bind n :: (loopCalls className find test body n ++ rest) <:+ M.calls) :
    M.Matches className find ⟨loopCalls className find test body n ++ rest, a⟩
      (s.choose test (body ++ [Stmt.whileDo test body]) []) := by
  let next := blockCalls className find body (n + 2) ++ .jump n :: .bind (n + 1) :: rest
  have hcalls : loopCalls className find test body n ++ rest =
      test.calls find test.op.condition.negate (n + 1) ++ next := by
    simp [loopCalls, next]
  have hnext : next <:+ M.calls := by
    rw [hcalls] at again
    exact (List.suffix_append _ _).trans ((List.suffix_cons _ _).trans again)
  have hdone : .bind (n + 1) :: rest <:+ M.calls :=
    List.IsSuffix.trans ⟨blockCalls className find body (n + 2) ++ [Call.jump n], by simp [next]⟩ hnext
  obtain ⟨x, y, hholds, hleads⟩ := test_leads suits typed base htest test.op.condition.negate hdone next
  rw [Condition.negate_holds, Comparison.condition_holds] at hleads
  rw [Situation.choose, hholds, hcalls]
  cases hop : test.op.holds x.toInt y.toInt with
  | true =>
    rw [hop] at hleads
    -- After the body the machine jumps back, and the loop is what the program has to do next.
    have hloop : M.Ahead className find (.whileDo test body :: s.todo) (.jump n :: .bind (n + 1) :: rest) :=
      .jump _ again (.loop again base.ahead)
    have hahead := hloop.block body (n + 2)
    refine ⟨_, hleads, ?_, hnext, base.stack, base.holds, base.input⟩
    rwa [List.append_assoc]
  | false =>
    rw [hop] at hleads
    exact ⟨_, hleads, base.ahead, base.here, base.stack, base.holds, base.input⟩

end Control

/-! ## Steps -/

theorem stmt_matches {s : Situation} {rest : List Call} {a : Activation} (suits : M.Suits className find)
    (typed : s.store.Typed find.typing) (base : M.Related className find s ⟨rest, a⟩) {stmt : Stmt}
    (hstmt : stmt.wellTyped find.typing = true) {n : Nat}
    (here : stmt.calls className find n ++ rest <:+ M.calls) :
    M.Matches className find ⟨stmt.calls className find n ++ rest, a⟩ (s.execute M.java find.typing stmt) := by
  cases stmt with
  | printText text => exact printText_matches suits base text n
  | printName x =>
    obtain ⟨t, ht⟩ := Option.isSome_iff_exists.1 hstmt
    obtain ⟨v, hv, -⟩ := Option.map_eq_some_iff.1 ht
    exact printName_matches suits base typed hv n
  | read x =>
    obtain ⟨t, ht⟩ := Option.isSome_iff_exists.1 hstmt
    obtain ⟨v, hv, -⟩ := Option.map_eq_some_iff.1 ht
    exact read_matches suits base hv here
  | setText x text =>
    have hx : find.typing x = some .text := by simpa [Stmt.wellTyped] using hstmt
    obtain ⟨v, hv, htype⟩ := Option.map_eq_some_iff.1 hx
    exact setText_matches suits base hv htype text n
  | setExpr x e =>
    obtain ⟨t, ht, he⟩ : ∃ t, find.typing x = some t ∧ e.hasType find.typing t = true := by
      simpa [Stmt.wellTyped, Option.any_eq_true] using hstmt
    obtain ⟨v, hv, rfl⟩ := Option.map_eq_some_iff.1 ht
    exact setExpr_matches suits base typed hv he here
  | ifThen test thenBody =>
    simp only [Stmt.wellTyped, Bool.and_eq_true] at hstmt
    rw [Stmt.calls_ifThen] at here ⊢
    exact ifElse_matches suits typed base hstmt.1 here
  | ifElse test thenBody elseBody =>
    simp only [Stmt.wellTyped, Bool.and_eq_true] at hstmt
    exact ifElse_matches suits typed base hstmt.1.1 here
  | whileDo test body =>
    simp only [Stmt.wellTyped, Bool.and_eq_true] at hstmt
    have hcalls : (Stmt.whileDo test body).calls className find n ++ rest =
        .newLabel :: .newLabel :: .bind n :: (loopCalls className find test body n ++ rest) := by
      simp [Stmt.calls, loopCalls]
    rw [hcalls] at here ⊢
    have again : .bind n :: (loopCalls className find test body n ++ rest) <:+ M.calls :=
      List.IsSuffix.trans ⟨[.newLabel, .newLabel], rfl⟩ here
    exact .after ((labels_lead _ a).after (.of_step rfl)) (loop_matches suits typed base hstmt.1 again)

/-- Labels and jumps may stand before the calls of the next statement. -/
theorem Ahead.matches {todo : List Stmt} {store : Store} {calls : List Call} {a : Activation}
    (suits : M.Suits className find) (typed : store.Typed find.typing) (ahead : M.Ahead className find todo calls)
    (htodo : blockWellTyped find.typing todo = true) (here : calls <:+ M.calls) (stack : a.stack = [])
    (holds : a.Holds find store) :
    M.Matches className find ⟨calls, a⟩ (Situation.step M.java find.typing ⟨todo, store, a.input⟩) := by
  -- On what stands before the next statement. Labels and jumps cost steps of the machine only.
  induction ahead with
  | done => exact ends_of_step rfl
  | @stmt stmt todo rest n tail _ =>
    rw [blockWellTyped, Bool.and_eq_true] at htodo
    have base : M.Related className find ⟨todo, store, a.input⟩ ⟨rest, a⟩ :=
      ⟨tail, (List.suffix_append _ _).trans here, stack, holds, rfl⟩
    exact stmt_matches suits typed base htodo.1 here
  | @loop test body todo rest n again tail _ =>
    rw [blockWellTyped, Bool.and_eq_true, Stmt.wellTyped, Bool.and_eq_true] at htodo
    have base : M.Related className find ⟨todo, store, a.input⟩ ⟨rest, a⟩ :=
      ⟨tail, (List.suffix_append _ _).trans here, stack, holds, rfl⟩
    exact loop_matches suits typed base htodo.1.1 again
  | bind label tail ih => exact .after (.of_step rfl) (ih htodo ((List.suffix_cons _ _).trans here))
  | jump other target tail ih =>
    exact .after (jump_leads suits target other a) (ih htodo ((List.suffix_cons _ _).trans target))

theorem step_matches {s : Situation} {t : CallState} (suits : M.Suits className find) (sound : s.Sound find.typing)
    (h : M.Related className find s t) :
    M.Matches className find t (Situation.step M.java find.typing s) := by
  have hmatches := h.ahead.matches suits sound.store sound.todo h.here h.stack h.holds
  rwa [h.input] at hmatches

/-- The machine that executes the calls simulates the program. -/
theorem simulates (suits : M.Suits className find) :
    Stepping.Simulates (Situation.step M.java find.typing) M.step
      fun s t => s.Sound find.typing ∧ M.Related className find s t := by
  refine ⟨?_, ?_⟩
  · rintro s s' t lines ⟨sound, related⟩ hstep
    have hmatches := step_matches suits sound related
    have hmeaningful := sound.step M.java
    rw [hstep] at hmatches hmeaningful
    obtain ⟨t', ⟨n, hrun⟩, hrelated⟩ := hmatches
    exact ⟨n, t', hrun, hmeaningful, hrelated⟩
  · rintro s t outcome ⟨sound, related⟩ hstep
    have hmatches := step_matches suits sound related
    rwa [hstep] at hmatches

end CallMachine

end KnightCode
