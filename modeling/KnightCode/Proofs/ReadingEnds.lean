import KnightCode.Proofs.FaultPosition

/-!
# Reading ends

The reader never goes past the last token: it reads this one again and again. Reading ends all the same. A token that
was taken is refused when it comes once more, unless it closes a block or a pair of parentheses, and no more of these
can be closed than were opened. Only an opening parenthesis could go on for ever.
-/

namespace KnightCode

namespace Reading

/-! ## What has begun -/

def closes : Token → Bool
  | .keyword .ENDIF | .keyword .ENDWHILE | .symbol .closeParen => true
  | _ => false

namespace State

def depth : State → Nat
  | .start | .programName | .header _ | .declarations .. | .declarationName .. | .finished _ => 0
  | .statement p | .printArgument p | .readTarget p | .setTarget p | .setAssign p _ | .setValue p _ | .testLeft p _
  | .testOperator p _ _ | .testRight p _ _ _ | .testEnd p _ _ => p.nests.length
  | .operand p e | .operator p e _ => p.nests.length + e.outer.length

/-- One more declaration, statement, operand of an operator, expression in parentheses or inner block has just begun. -/
def begins : State → Bool
  | .declarationName .. | .setTarget _ | .printArgument _ | .readTarget _ | .testLeft .. | .operand .. => true
  | .statement p => p.done.isEmpty && !p.nests.isEmpty
  | _ => false

def Refuses (s : State) (t : Token) : Prop := ∃ fault, s.step t = .error fault

end State

/-! ## What taking a token leads to -/

/-- What is known of the state after a token, where the given number of blocks and parentheses was open before it. -/
inductive Taken (depth : Nat) (t : Token) (s : State) : Prop
  | once (hopen : closes t = false) (hagain : s.Refuses t) (hdepth : s.depth ≤ depth + 1)
  | closing (hcloses : closes t = true) (hdepth : s.depth < depth) (hbegins : s.begins = false)
  | parenthesis (hopen : t = .symbol .openParen) (hdepth : s.depth ≤ depth + 1)

section Taken

variable {p : Place} {e : Pending} {value : Expr} {t : Token} {s s' : State}

theorem taken_stepStatement (h : stepStatement p t = .ok s) : Taken p.nests.length t s := by
  obtain ⟨name, declarations, nests, done⟩ := p
  simp only [stepStatement] at h
  split at h
  · cases h
    exact .once rfl ⟨_, rfl⟩ (Nat.zero_le _)
  · cases h
    exact .closing rfl (Nat.lt_succ_self _) rfl
  · cases h
    exact .once rfl ⟨_, rfl⟩ (Nat.le_succ _)
  · cases h
    exact .closing rfl (Nat.lt_succ_self _) rfl
  · cases h
    exact .closing rfl (Nat.lt_succ_self _) rfl
  all_goals cases h
  all_goals exact .once rfl ⟨_, rfl⟩ (Nat.le_succ _)

theorem statement_refuses (p : Place) (ht : ∀ k, t = .keyword k → k ∈ [Keyword.BEGIN, Keyword.THEN, Keyword.DO]) :
    (State.statement p).Refuses t := by
  unfold State.Refuses
  simp only [State.step, stepStatement]
  -- a branch that takes the token takes a keyword that `ht` leaves out
  split <;> first
    | exact ⟨_, rfl⟩
    | simp at ht

theorem operator_refuses_operand (p : Place) (e : Pending) (value : Expr) (o : Operand) :
    (State.operator p e value).Refuses o.token := by
  obtain ⟨target, level, outer⟩ := e
  have hend : ∃ fault, stepEndLevel p ⟨target, level, outer⟩ value o.token = .error fault := by
    cases outer with
    | nil => exact statement_refuses _ (by cases o <;> simp [Operand.token])
    | cons l outer => cases o <;> exact ⟨_, rfl⟩
  cases o <;> exact hend

theorem taken_stepOperand (h : stepOperand p e t = .ok s) : Taken (p.nests.length + e.outer.length) t s := by
  cases t with
  | number n =>
    cases h
    exact .once rfl (operator_refuses_operand p e _ (.number n)) (Nat.le_succ _)
  | name name =>
    cases h
    exact .once rfl (operator_refuses_operand p e _ (.name name)) (Nat.le_succ _)
  | symbol symbol =>
    cases symbol with
    | openParen =>
      cases h
      exact .parenthesis rfl (Nat.le_refl _)
    | _ => cases h
  | _ => cases h

theorem taken_stepEndLevel (h : stepEndLevel p e value t = .ok s) :
    Taken (p.nests.length + e.outer.length) t s := by
  obtain ⟨target, level, outer⟩ := e
  cases outer with
  | nil => exact taken_stepStatement (p := p.add (.setExpr target (level.close value))) h
  | cons l outer =>
    obtain ⟨rfl, rfl⟩ := expect_eq_ok h
    exact .closing rfl (Nat.lt_succ_self _) rfl

theorem taken_stepOperator (h : stepOperator p e value t = .ok s) :
    Taken (p.nests.length + e.outer.length) t s := by
  unfold stepOperator at h
  dsimp only at h
  split at h
  iterate 4
    · cases h
      exact .once rfl ⟨_, rfl⟩ (Nat.le_succ _)
  · split at h
    · next op hop _ =>
      cases h
      obtain rfl := comparison?_eq_some.1 hop
      cases op <;> exact .once rfl ⟨_, rfl⟩ (Nat.le_succ _)
    · exact taken_stepEndLevel h

theorem taken_step (h : s.step t = .ok s') : Taken s.depth t s' := by
  cases s with
  | start =>
    obtain ⟨rfl, rfl⟩ := expect_eq_ok h
    exact .once rfl ⟨_, rfl⟩ (Nat.zero_le _)
  | programName =>
    obtain ⟨name, rfl, rfl⟩ := expectName_eq_ok h
    exact .once rfl ⟨_, rfl⟩ (Nat.zero_le _)
  | header name =>
    simp only [State.step] at h
    split at h
    · next heq =>
      cases h
      exact heq ▸ .once rfl ⟨_, rfl⟩ (Nat.zero_le _)
    · obtain ⟨rfl, rfl⟩ := expect_eq_ok h
      exact .once rfl (statement_refuses _ (by simp)) (Nat.zero_le _)
  | declarations name done =>
    simp only [State.step] at h
    split at h
    · cases h
      exact .once rfl ⟨_, rfl⟩ (Nat.zero_le _)
    · cases h
      exact .once rfl ⟨_, rfl⟩ (Nat.zero_le _)
    · obtain ⟨rfl, rfl⟩ := expect_eq_ok h
      exact .once rfl (statement_refuses _ (by simp)) (Nat.zero_le _)
  | declarationName name done type =>
    obtain ⟨name, rfl, rfl⟩ := expectName_eq_ok h
    exact .once rfl ⟨_, rfl⟩ (Nat.zero_le _)
  | statement p => exact taken_stepStatement h
  | printArgument p =>
    simp only [State.step] at h
    split at h
    · cases h
      exact .once rfl (statement_refuses _ (by simp)) (Nat.le_succ _)
    · cases h
      exact .once rfl (statement_refuses _ (by simp)) (Nat.le_succ _)
    · cases h
  | readTarget p =>
    obtain ⟨name, rfl, rfl⟩ := expectName_eq_ok h
    exact .once rfl (statement_refuses _ (by simp)) (Nat.le_succ _)
  | setTarget p =>
    obtain ⟨name, rfl, rfl⟩ := expectName_eq_ok h
    exact .once rfl ⟨_, rfl⟩ (Nat.le_succ _)
  | setAssign p target =>
    obtain ⟨rfl, rfl⟩ := expect_eq_ok h
    exact .once rfl ⟨_, rfl⟩ (Nat.le_succ _)
  | setValue p target =>
    simp only [State.step] at h
    split at h
    · cases h
      exact .once rfl (statement_refuses _ (by simp)) (Nat.le_succ _)
    · exact taken_stepOperand h
  | operand p e => exact taken_stepOperand h
  | operator p e value => exact taken_stepOperator h
  | testLeft p tested =>
    simp only [State.step] at h
    split at h
    · next o ho =>
      cases h
      obtain rfl := operand?_eq_some.1 ho
      cases o <;> exact .once rfl ⟨_, rfl⟩ (Nat.le_succ _)
    · cases h
  | testOperator p tested left =>
    simp only [State.step] at h
    split at h
    · next op hop =>
      cases h
      obtain rfl := comparison?_eq_some.1 hop
      cases op <;> exact .once rfl ⟨_, rfl⟩ (Nat.le_succ _)
    · cases h
  | testRight p tested left op =>
    simp only [State.step] at h
    split at h
    · next o ho =>
      cases h
      obtain rfl := operand?_eq_some.1 ho
      cases o <;> exact .once rfl ⟨_, rfl⟩ (Nat.le_succ _)
    · cases h
  | testEnd p tested test =>
    obtain ⟨rfl, rfl⟩ := expect_eq_ok h
    refine .once ?_ (statement_refuses _ ?_) (Nat.le_refl _)
    · cases tested <;> rfl
    · cases tested <;> simp [Tested.closing]
  | finished program => cases h

end Taken

/-! ## Reading a list of tokens -/

/-- The index of the token that is read after so many others: nothing leads past the last one. -/
def cursor (tokens : List Located) (reads : Nat) : Nat := min reads (tokens.length - 1)

/-- The token at the cursor. No tokens at all are read as the end of the input. -/
def tokenAt (tokens : List Located) (reads : Nat) : Located :=
  tokens[cursor tokens reads]?.getD ⟨.endOfInput, ⟨0, 0⟩⟩

/-- The state after so many tokens. -/
inductive Reaches (tokens : List Located) : Nat → State → Prop
  | start : Reaches tokens 0 .start
  | step {n : Nat} {s s' : State} (h : Reaches tokens n s) (hstep : s.step (tokenAt tokens n).token = .ok s') :
    Reaches tokens (n + 1) s'

/-- Reading stops at the token after so many others, with a program or with a fault there. -/
inductive Stops (tokens : List Located) : Nat → Except SyntaxError Program → Prop
  | program {n : Nat} {program : Program} (h : Reaches tokens n (.finished program))
    (hend : (tokenAt tokens n).token = .endOfInput) : Stops tokens n (.ok program)
  | fault {n : Nat} {s : State} {fault : SyntaxFault} (h : Reaches tokens n s)
    (hstep : s.step (tokenAt tokens n).token = .error fault)
    (hend : (tokenAt tokens n).token = .endOfInput → ∀ program, s ≠ .finished program) :
    Stops tokens n (.error ⟨(tokenAt tokens n).position, fault⟩)

section Reaches

variable {tokens : List Located} {n k : Nat} {s s' : State} {result result' : Except SyntaxError Program}

theorem Reaches.unique (h : Reaches tokens n s) (h' : Reaches tokens n s') : s = s' := by
  induction h generalizing s' with
  | start => cases h'; rfl
  | step _ hstep ih =>
    cases h' with
    | step hbefore hstep' =>
      cases ih hbefore
      exact Except.ok.inj (hstep.symm.trans hstep')

theorem Reaches.before (h : Reaches tokens n s) (hk : k ≤ n) : ∃ m, Reaches tokens k m := by
  induction h with
  | start => exact ⟨.start, Nat.le_zero.1 hk ▸ .start⟩
  | @step n _ s' h hstep ih =>
    rcases Nat.lt_or_eq_of_le hk with hlt | rfl
    · exact ih (Nat.le_of_lt_succ hlt)
    · exact ⟨s', h.step hstep⟩

theorem Stops.reaches (h : Stops tokens n result) : ∃ s, Reaches tokens n s := by
  cases h with
  | program h _ => exact ⟨_, h⟩
  | fault h _ _ => exact ⟨_, h⟩

theorem Stops.not_reaches (h : Stops tokens n result) (s : State) : ¬Reaches tokens (n + 1) s := by
  intro hnext
  cases hnext with
  | step hn hstep =>
    cases h with
    | program h hend =>
      cases hn.unique h
      cases hstep
    | fault h hfault _ =>
      cases hn.unique h
      rw [hfault] at hstep
      cases hstep

theorem Stops.le (h : Stops tokens n result) (h' : Reaches tokens k s) : k ≤ n := by
  refine Nat.le_of_not_lt fun hlt => ?_
  obtain ⟨m, hm⟩ := h'.before hlt
  exact h.not_reaches m hm

theorem Stops.unique (h : Stops tokens n result) (h' : Stops tokens k result') : result = result' := by
  obtain ⟨s, hs⟩ := h.reaches
  obtain ⟨s', hs'⟩ := h'.reaches
  obtain rfl : n = k := Nat.le_antisymm (h'.le hs) (h.le hs')
  cases h with
  | program h hend =>
    cases h' with
    | program h' _ => cases h.unique h'; rfl
    | fault h' _ hend' => exact absurd (h'.unique h) (hend' hend _)
  | fault h hstep hend =>
    cases h' with
    | program h' hend' => exact absurd (h.unique h') (hend hend' _)
    | fault h' hstep' _ =>
      cases h.unique h'
      cases hstep.symm.trans hstep'
      rfl

end Reaches

/-! ## How far reading goes -/

def NoOpenEnd (tokens : List Located) : Prop := ∀ l ∈ tokens.getLast?, l.token ≠ .symbol .openParen

section Bound

variable {tokens : List Located} {n : Nat} {s s' : State}

theorem tokenAt_of_lt (h : n < tokens.length) : tokenAt tokens n = tokens[n] := by
  have hcursor : cursor tokens n = n := by
    unfold cursor
    omega
  simp [tokenAt, hcursor, h]

theorem tokenAt_of_le (h : tokens.length ≤ n + 1) :
    tokenAt tokens n = tokens.getLast?.getD ⟨.endOfInput, ⟨0, 0⟩⟩ := by
  have hcursor : cursor tokens n = tokens.length - 1 := by
    unfold cursor
    omega
  rw [tokenAt, hcursor, List.getLast?_eq_getElem?]

theorem tokenAt_again (h : tokens.length ≤ n + 1) : tokenAt tokens (n + 1) = tokenAt tokens n := by
  rw [tokenAt_of_le h, tokenAt_of_le (Nat.le_succ_of_le h)]

theorem NoOpenEnd.tokenAt_ne (hlast : NoOpenEnd tokens) (h : tokens.length ≤ n + 1) :
    (tokenAt tokens n).token ≠ .symbol .openParen := by
  rw [tokenAt_of_le h]
  cases hl : tokens.getLast? with
  | none => simp
  | some l => exact hlast l hl

/-- Where the cursor stays, a token is taken once more only to close what is open. -/
theorem NoOpenEnd.depth_lt (hlast : NoOpenEnd tokens) (hn : tokens.length ≤ n) (h : Reaches tokens n s)
    (hstep : s.step (tokenAt tokens n).token = .ok s') : s'.depth < s.depth := by
  cases h with
  | start =>
    obtain rfl : tokens = [] := List.eq_nil_of_length_eq_zero (Nat.le_zero.1 hn)
    cases hstep
  | @step n _ _ _ htaken =>
    have hparen := hlast.tokenAt_ne hn
    rw [tokenAt_again hn] at hstep
    -- The token was taken once already. Only one that closes something can be taken again, to close more.
    cases taken_step htaken with
    | once _ hagain _ =>
      obtain ⟨fault, hfault⟩ := hagain
      rw [hfault] at hstep
      cases hstep
    | parenthesis hopen _ => exact absurd hopen hparen
    | closing hcloses _ _ =>
      cases taken_step hstep with
      | once hopen _ _ => rw [hopen] at hcloses; cases hcloses
      | parenthesis hopen _ => exact absurd hopen hparen
      | closing _ hdepth _ => exact hdepth

theorem Taken.depth_le {depth : Nat} {t : Token} (h : Taken depth t s) : s.depth ≤ depth + 1 := by
  cases h <;> omega

/-- Up to the last token something may be opened with each one; after it something is closed each time. -/
theorem NoOpenEnd.bound (hlast : NoOpenEnd tokens) (h : Reaches tokens n s) :
    n + s.depth ≤ 2 * min n tokens.length := by
  induction h with
  | start => exact Nat.zero_le _
  | @step n s s' h hstep ih =>
    by_cases hn : tokens.length ≤ n
    · have hdepth := hlast.depth_lt hn h hstep
      omega
    · have hdepth := (taken_step hstep).depth_le
      omega

end Bound

/-! ## What is made of the tokens -/

section Run

variable {tokens : List Located} {n : Nat} {s : State}

theorem Reaches.run (h : Reaches tokens n s) (more : Nat) :
    (∃ m, run s ((List.range' n more).map (tokenAt tokens)) = .unfinished m ∧ Reaches tokens (n + more) m) ∨
      (∃ k program, run s ((List.range' n more).map (tokenAt tokens)) = .program program ∧
        Stops tokens k (.ok program)) ∨
      ∃ k error, run s ((List.range' n more).map (tokenAt tokens)) = .fault error ∧ Stops tokens k (.error error) := by
  induction more generalizing n s with
  | zero => exact .inl ⟨s, rfl, h⟩
  | succ more ih =>
    rw [List.range'_succ, List.map_cons, run.eq_def]
    dsimp only
    split
    · next program hend => exact .inr (.inl ⟨n, program, rfl, .program h hend⟩)
    · next hend =>
      split
      · next m hstep =>
        rw [← Nat.add_assoc, Nat.add_right_comm]
        exact ih (h.step hstep)
      · next fault hstep =>
        exact .inr (.inr ⟨n, _, rfl, .fault h hstep fun htoken program hs => hend program hs htoken⟩)

theorem map_tokenAt_range' (tokens : List Located) :
    (List.range' 0 tokens.length).map (tokenAt tokens) = tokens := by
  refine List.ext_getElem (by simp) fun i _ hi => ?_
  simp [tokenAt_of_lt hi]

theorem map_tokenAt_after (tokens : List Located) (more : Nat) :
    (List.range' tokens.length more).map (tokenAt tokens) =
      List.replicate more (tokens.getLast?.getD ⟨.endOfInput, ⟨0, 0⟩⟩) := by
  refine List.eq_replicate_iff.2 ⟨by simp, ?_⟩
  simp only [List.mem_map, List.mem_range'_1]
  rintro l ⟨i, ⟨hi, -⟩, rfl⟩
  exact tokenAt_of_le (Nat.le_succ_of_le hi)

/-- The result is that of the endless reading. -/
theorem NoOpenEnd.stops (hlast : NoOpenEnd tokens) : ∃ n, Stops tokens n (Program.ofTokens tokens) := by
  have hfirst := (Reaches.start : Reaches tokens 0 .start).run tokens.length
  rw [map_tokenAt_range'] at hfirst
  unfold Program.ofTokens
  -- Reading the tokens may leave a state, from which the last token is read as often as it takes.
  rcases hfirst with ⟨m, hrun, hm⟩ | ⟨k, program, hrun, hstops⟩ | ⟨k, error, hrun, hstops⟩
  · have hagain := hm.run (tokens.length + 2)
    rw [Nat.zero_add, map_tokenAt_after] at hagain
    rcases hagain with ⟨m', -, hm'⟩ | ⟨k, program, hrun', hstops⟩ | ⟨k, error, hrun', hstops⟩
    · have hbound := hlast.bound hm'
      omega
    · exact ⟨k, by simpa only [hrun, hrun'] using hstops⟩
    · exact ⟨k, by simpa only [hrun, hrun'] using hstops⟩
  · exact ⟨k, by simpa only [hrun] using hstops⟩
  · exact ⟨k, by simpa only [hrun] using hstops⟩

end Run

theorem NoOpenEnd.progress {tokens : List Located} {n : Nat} {s : State} (hlast : NoOpenEnd tokens)
    (h : Reaches tokens (n + 1) s) (hbegins : s.begins = true) :
    cursor tokens n < cursor tokens (n + 1) ∨
      ∃ fault, Stops tokens (n + 1) (.error ⟨(tokenAt tokens (n + 1)).position, fault⟩) := by
  by_cases hn : n + 1 < tokens.length
  · left
    unfold cursor
    omega
  · right
    have hn : tokens.length ≤ n + 1 := Nat.le_of_not_lt hn
    have hfinished : ∀ program, s ≠ .finished program := by
      rintro program rfl
      cases hbegins
    cases hs : h with
    | step hbefore hstep =>
      cases taken_step hstep with
      | once _ hagain _ =>
        obtain ⟨fault, hfault⟩ := hagain
        rw [← tokenAt_again hn] at hfault
        exact ⟨fault, .fault h hfault fun _ => hfinished⟩
      | closing _ _ hdone => rw [hdone] at hbegins; cases hbegins
      | parenthesis hopen _ => exact absurd hopen (hlast.tokenAt_ne hn)

theorem noOpenEnd_of_scan {text : String} {tokens : List Located} (h : scan text = .ok tokens) : NoOpenEnd tokens := by
  obtain ⟨inner, htokens, -⟩ := tokens_of_layout (scan_eq_ok_iff.1 h)
  intro l hl
  have hend : (tokens.map (·.token)).getLast? = some .endOfInput := by simp [htokens]
  rw [List.getLast?_map, Option.mem_def.1 hl] at hend
  simp [Option.some.inj hend]

/-! ## An opening parenthesis at the end -/

theorem step_openParen {s s' : State} (h : s.step (.symbol .openParen) = .ok s') : ∃ p e, s' = .operand p e := by
  have hstatement : ∀ p, stepStatement p (.symbol .openParen) ≠ .ok s' := by
    intro p hp
    obtain ⟨fault, hfault⟩ := statement_refuses (t := .symbol .openParen) p (by simp)
    cases hfault.symm.trans hp
  cases s with
  | statement p => exact absurd h (hstatement p)
  | setValue p target => cases h; exact ⟨_, _, rfl⟩
  | operand p e => cases h; exact ⟨_, _, rfl⟩
  | operator p e value =>
    obtain ⟨target, level, outer⟩ := e
    cases outer with
    | nil => exact absurd h (hstatement _)
    | cons l outer => cases h
  | _ => cases h

theorem tokenAt_of_openEnd {tokens : List Located} {n : Nat} (hlast : ¬NoOpenEnd tokens) (h : tokens.length ≤ n + 1) :
    (tokenAt tokens n).token = .symbol .openParen := by
  simp only [NoOpenEnd, Classical.not_forall, Classical.not_not] at hlast
  obtain ⟨l, hl, htoken⟩ := hlast
  rw [tokenAt_of_le h, Option.mem_def.1 hl]
  exact htoken

theorem endless_of_openEnd {tokens : List Located} {s : State} (hlast : ¬NoOpenEnd tokens)
    (h : Reaches tokens tokens.length s) (n : Nat) : ∃ p e, Reaches tokens (tokens.length + n) (.operand p e) := by
  -- On the number of tokens: each parenthesis leads to a state that takes another one.
  induction n with
  | zero =>
    cases hlength : tokens.length with
    | zero => exact absurd (by simp [NoOpenEnd, List.eq_nil_of_length_eq_zero hlength]) hlast
    | succ k =>
      rw [hlength] at h
      cases h with
      | step hbefore hstep =>
        have htoken := tokenAt_of_openEnd hlast (Nat.le_of_eq hlength)
        obtain ⟨p, e, rfl⟩ := step_openParen (htoken ▸ hstep)
        exact ⟨p, e, hbefore.step hstep⟩
  | succ n ih =>
    obtain ⟨p, e, hn⟩ := ih
    have htoken : (tokenAt tokens (tokens.length + n)).token = .symbol .openParen :=
      tokenAt_of_openEnd hlast (by omega)
    exact ⟨p, { e with level := .empty, outer := e.level :: e.outer }, hn.step (by rw [htoken]; rfl)⟩

end Reading

open Reading in
/-- Reading ends. The tokens of a text do not end in an opening parenthesis. Where the last token is another one, reading
stops, though it never goes past this token, after at most twice as many tokens as there are, and the result is what was
read until then. With every declaration, statement, operand, parenthesis and inner block that begins, either the cursor
has moved on or reading ends with a fault. An opening parenthesis that is taken as the last token has no end. -/
theorem Program.reading_ends :
    (∀ text tokens, scan text = .ok tokens → NoOpenEnd tokens) ∧
      (∀ tokens, NoOpenEnd tokens →
        (∃ n ≤ 2 * tokens.length, Stops tokens n (Program.ofTokens tokens)) ∧
        ∀ n s s', Reaches tokens n s → s.step (tokenAt tokens n).token = .ok s' → s'.begins = true →
          cursor tokens n < cursor tokens (n + 1) ∨
            ∃ fault, Program.ofTokens tokens = .error ⟨(tokenAt tokens (n + 1)).position, fault⟩) ∧
      ∀ tokens s, ¬NoOpenEnd tokens → Reaches tokens tokens.length s → ∀ n result, ¬Stops tokens n result := by
  refine ⟨fun _ _ => noOpenEnd_of_scan, ?_, ?_⟩
  · intro tokens hlast
    obtain ⟨n, hstops⟩ := hlast.stops
    constructor
    · obtain ⟨s, hs⟩ := hstops.reaches
      have hbound := hlast.bound hs
      exact ⟨n, by omega, hstops⟩
    · intro k s s' hs hstep hbegins
      rcases hlast.progress (hs.step hstep) hbegins with hcursor | ⟨fault, hfault⟩
      · exact .inl hcursor
      · exact .inr ⟨fault, hstops.unique hfault⟩
  · intro tokens s hlast hs n result hstops
    obtain ⟨p, e, hlater⟩ := endless_of_openEnd hlast hs (n + 1)
    have hle := hstops.le hlater
    omega

/-- Tokens without the end of the input, which break off after the inner one of two blocks. -/
def breakingOff : List Located :=
  [⟨.keyword .PROGRAM, ⟨1, 1⟩⟩, ⟨.name "p", ⟨1, 9⟩⟩, ⟨.keyword .BEGIN, ⟨2, 1⟩⟩, ⟨.keyword .WHILE, ⟨3, 3⟩⟩,
    ⟨.name "a", ⟨3, 9⟩⟩, ⟨.symbol .less, ⟨3, 11⟩⟩, ⟨.name "b", ⟨3, 13⟩⟩, ⟨.keyword .DO, ⟨3, 15⟩⟩,
    ⟨.keyword .WHILE, ⟨4, 5⟩⟩, ⟨.name "b", ⟨4, 11⟩⟩, ⟨.symbol .less, ⟨4, 13⟩⟩, ⟨.name "a", ⟨4, 15⟩⟩,
    ⟨.keyword .DO, ⟨4, 17⟩⟩, ⟨.keyword .ENDWHILE, ⟨5, 5⟩⟩]

def openingForEver : List Located :=
  [⟨.keyword .PROGRAM, ⟨1, 1⟩⟩, ⟨.name "p", ⟨1, 9⟩⟩, ⟨.keyword .BEGIN, ⟨2, 1⟩⟩, ⟨.keyword .SET, ⟨3, 3⟩⟩,
    ⟨.name "a", ⟨3, 7⟩⟩, ⟨.symbol .assign, ⟨3, 9⟩⟩, ⟨.symbol .openParen, ⟨3, 12⟩⟩]

open Reading in
theorem Program.reading_ends_breakingOff :
    (NoOpenEnd breakingOff ∧
      Program.ofTokens breakingOff = .error ⟨⟨5, 5⟩, .expectedStatement (.keyword .ENDWHILE)⟩ ∧
      ∃ n ≤ 28, Stops breakingOff n (.error ⟨⟨5, 5⟩, .expectedStatement (.keyword .ENDWHILE)⟩)) ∧
    ¬NoOpenEnd openingForEver ∧ ∀ n result, ¬Stops openingForEver n result := by
  have hlast : NoOpenEnd breakingOff := by simp [NoOpenEnd, breakingOff]
  have hread : Program.ofTokens breakingOff = .error ⟨⟨5, 5⟩, .expectedStatement (.keyword .ENDWHILE)⟩ := by rfl
  have hends := (reading_ends.2.1 breakingOff hlast).1
  rw [hread] at hends
  have hopen : ¬NoOpenEnd openingForEver := by simp [NoOpenEnd, openingForEver]
  have hreaches : Reaches openingForEver 7 (.operand ⟨"p", none, [], []⟩ ⟨"a", .empty, [.empty]⟩) :=
    .step (.step (.step (.step (.step (.step (.step .start rfl) rfl) rfl) rfl) rfl) rfl) rfl
  exact ⟨⟨hlast, hread, hends⟩, hopen, reading_ends.2.2 openingForEver _ hopen hreaches⟩

end KnightCode
