import KnightCode.Proofs.Lexing
import KnightCode.Proofs.Parsing

/-!
# Where a fault is reported

From every state of the reader some tokens lead to the end of a program, so the tokens before a fault could still have
become a program. With the token at the fault they could not: reading has no choices, and the tokens of a program are
read without a fault.
-/

namespace KnightCode

namespace Reading

/-! ## Every state can be completed -/

/-- Some tokens lead from the state to the end of a program. -/
def Completes (s : State) : Prop := ∃ tokens program, Steps s tokens (.finished program)

theorem Completes.of_step {s m : State} {t : Token} (hstep : s.step t = .ok m) (hm : Completes m) : Completes s := by
  obtain ⟨tokens, program, hsteps⟩ := hm
  exact ⟨t :: tokens, program, .cons hstep hsteps⟩

theorem completes_statement (p : Place) : Completes (.statement p) := by
  obtain ⟨name, declarations, nests, done⟩ := p
  induction nests generalizing done with
  | nil => exact .of_step (t := .keyword .END) rfl ⟨[], _, .nil _⟩
  | cons nest outer ih =>
    obtain ⟨opening, before⟩ := nest
    cases opening with
    | thenOf test => exact .of_step (t := .keyword .ENDIF) rfl (ih _)
    | elseOf test thenBody => exact .of_step (t := .keyword .ENDIF) rfl (ih _)
    | whileOf test => exact .of_step (t := .keyword .ENDWHILE) rfl (ih _)

theorem completes_of_ready {p : Place} {s : State} (h : Ready p s) : Completes s :=
  .of_step ((h .PRINT).trans (stepStatement_print p)) (.of_step (t := .text "") rfl (completes_statement _))

theorem completes_operator (p : Place) (e : Pending) (value : Expr) : Completes (.operator p e value) := by
  obtain ⟨target, level, outer⟩ := e
  induction outer generalizing level value with
  | nil => exact completes_of_ready (ready_operator p target level value)
  | cons l outer ih => exact .of_step (t := .symbol .closeParen) rfl (ih _ l)

theorem completes_operand (p : Place) (e : Pending) : Completes (.operand p e) :=
  .of_step (t := .number 0) rfl (completes_operator p e _)

theorem completes_declarations (name : String) (done : List Declaration) : Completes (.declarations name done) :=
  .of_step (t := .keyword .BEGIN) rfl (completes_statement _)

theorem completes_testEnd (p : Place) (t : Tested) (test : Test) : Completes (.testEnd p t test) :=
  .of_step (t := .keyword t.closing) (m := .statement (p.openBlock (t.opening test))) (by simp [State.step, expect])
    (completes_statement _)

theorem completes (s : State) : Completes s := by
  -- States that only wait for the next fixed token lead to one another, so the later ones come first.
  have hheader : ∀ name, Completes (.header name) := fun name =>
    .of_step (t := .keyword .DECLARE) rfl (completes_declarations name [])
  have hprogramName : Completes .programName := .of_step (t := .name "") rfl (hheader "")
  have hvalue : ∀ p target, Completes (.setValue p target) := fun p target =>
    .of_step (t := .text "") rfl (completes_statement _)
  have hassign : ∀ p target, Completes (.setAssign p target) := fun p target =>
    .of_step (t := .symbol .assign) rfl (hvalue p target)
  have hright : ∀ p t left op, Completes (.testRight p t left op) := fun p t left op =>
    .of_step (t := .number 0) rfl (completes_testEnd p t _)
  have hoperator : ∀ p t left, Completes (.testOperator p t left) := fun p t left =>
    .of_step (t := .symbol .less) rfl (hright p t left .less)
  cases s with
  | start => exact .of_step (t := .keyword .PROGRAM) rfl hprogramName
  | programName => exact hprogramName
  | header name => exact hheader name
  | declarations name done => exact completes_declarations name done
  | declarationName name done type => exact .of_step (t := .name "") rfl (completes_declarations name _)
  | statement p => exact completes_statement p
  | printArgument p => exact .of_step (t := .text "") rfl (completes_statement _)
  | readTarget p => exact .of_step (t := .name "") rfl (completes_statement _)
  | setTarget p => exact .of_step (t := .name "") rfl (hassign p "")
  | setAssign p target => exact hassign p target
  | setValue p target => exact hvalue p target
  | operand p e => exact completes_operand p e
  | operator p e value => exact completes_operator p e value
  | testLeft p t => exact .of_step (t := .number 0) rfl (hoperator p t _)
  | testOperator p t left => exact hoperator p t left
  | testRight p t left op => exact hright p t left op
  | testEnd p t test => exact completes_testEnd p t test
  | finished program => exact ⟨[], program, .nil _⟩

/-! ## Tokens that can become a program -/

namespace Steps

variable {s s' : State} {first second tokens : List Token}

theorem append_iff : Steps s (first ++ second) s' ↔ ∃ m, Steps s first m ∧ Steps m second s' := by
  rw [Steps, List.foldlM_append, except_bind_eq_ok]
  rfl

theorem endOfInput_not_mem (h : Steps s tokens s') : .endOfInput ∉ tokens := by
  intro hmem
  obtain ⟨first, second, rfl⟩ := List.append_of_mem hmem
  obtain ⟨m, -, hrest⟩ := append_iff.1 h
  obtain ⟨m', hstep, -⟩ := cons_iff.1 hrest
  obtain ⟨fault, hfault⟩ := step_endOfInput m
  rw [hfault] at hstep
  cases hstep

end Steps

end Reading

/-- Some program of the grammar, followed by the end of the input, begins with these tokens. -/
def Viable (tokens : List Token) : Prop :=
  ∃ program : Program, program.Canonical ∧ tokens <+: program.tokens ++ [.endOfInput]

namespace Reading

theorem viable_iff_steps {tokens : List Token} (hinner : .endOfInput ∉ tokens) :
    Viable tokens ↔ ∃ s, Steps .start tokens s := by
  constructor
  · rintro ⟨program, hcanonical, hbegins⟩
    rcases List.prefix_concat_iff.1 hbegins with rfl | ⟨rest, hrest⟩
    · simp at hinner
    · have hsteps := steps_program hcanonical
      rw [← hrest] at hsteps
      obtain ⟨m, hm, -⟩ := Steps.append_iff.1 hsteps
      exact ⟨m, hm⟩
  · -- Wherever the reader has come, some further tokens make a program.
    rintro ⟨s, hs⟩
    obtain ⟨rest, program, hrest⟩ := completes s
    obtain ⟨hcanonical, htokens⟩ := steps_finished_iff.1 (hs.append hrest)
    exact ⟨program, hcanonical, rest ++ [Token.endOfInput], by rw [← htokens, List.append_assoc]⟩

theorem viable_end_iff {tokens : List Token} :
    Viable (tokens ++ [Token.endOfInput]) ↔ ∃ program, Steps .start tokens (.finished program) := by
  constructor
  · rintro ⟨program, hcanonical, hbegins⟩
    have hsteps := steps_program hcanonical
    rcases List.prefix_concat_iff.1 hbegins with heq | hinner
    · rw [List.append_left_inj] at heq
      exact ⟨program, heq ▸ hsteps⟩
    · exact absurd (hinner.subset (by simp)) hsteps.endOfInput_not_mem
  · rintro ⟨program, hsteps⟩
    obtain ⟨hcanonical, rfl⟩ := steps_finished_iff.1 hsteps
    exact ⟨program, hcanonical, List.prefix_rfl⟩

theorem not_viable_of_refused {tokens : List Token} {m : State} {t : Token} (hm : Steps .start tokens m)
    (hstep : ∀ m', m.step t ≠ .ok m') (hend : t = .endOfInput → ∀ program, m ≠ .finished program) :
    ¬Viable (tokens ++ [t]) := by
  intro hviable
  -- The end of the input is taken by no step, so it is refused in a way of its own.
  by_cases ht : t = .endOfInput
  · rw [ht, viable_end_iff] at hviable
    obtain ⟨program, hprogram⟩ := hviable
    exact hend ht program (hm.unique hprogram)
  · have hinner : .endOfInput ∉ tokens ++ [t] := by simpa [eq_comm, ht] using hm.endOfInput_not_mem
    obtain ⟨s, hs⟩ := (viable_iff_steps hinner).1 hviable
    obtain ⟨m', hm', hlast⟩ := Steps.append_iff.1 hs
    obtain ⟨next, hnext, -⟩ := Steps.cons_iff.1 hlast
    exact hstep next (hm.unique hm' ▸ hnext)

/-! ## The token at the fault -/

theorem run_eq_fault {located : List Located} {s : State} {error : SyntaxError} (h : run s located = .fault error) :
    ∃ before l after m, located = before ++ l :: after ∧ error.position = l.position ∧
      Steps s (before.map (·.token)) m ∧ (∀ m', m.step l.token ≠ .ok m') ∧
      (l.token = .endOfInput → ∀ program, m ≠ .finished program) := by
  -- On the tokens, from any state: each one that is taken is put in front of what the rest is split into.
  induction located generalizing s with
  | nil => cases h
  | cons l rest ih =>
    rw [run.eq_def] at h
    dsimp only at h
    split at h
    · cases h
    · next hunfinished =>
      split at h
      · next m hm =>
        obtain ⟨before, l', after, m', rfl, hposition, hsteps, hrefused⟩ := ih h
        exact ⟨l :: before, l', after, m', rfl, hposition, .cons hm hsteps, hrefused⟩
      · next fault hfault =>
        cases h
        refine ⟨[], l, rest, _, rfl, rfl, .nil _, by simp [hfault], ?_⟩
        intro hlast program hfinished
        exact hunfinished program hfinished hlast

end Reading

theorem tokens_of_layout {before rest : List Char} {located : List Located} (h : Layout before rest located) :
    ∃ tokens, located.map (·.token) = tokens ++ [Token.endOfInput] ∧ .endOfInput ∉ tokens := by
  induction h with
  | last _ => exact ⟨[], rfl, by simp⟩
  | @token _ _ _ _ t _ _ hspells _ _ ih =>
    obtain ⟨tokens, htokens, hinner⟩ := ih
    have ht : t ≠ .endOfInput := by
      rintro rfl
      exact hspells
    exact ⟨t :: tokens, by simp [htokens], by simp [ht.symm, hinner]⟩

open Reading in
/-- A fault in the tokens of a text is reported at the first token with which they are no longer the beginning of any
program. -/
theorem Program.fault_at_first_bad_token {text : String} {located : List Located} {error : SyntaxError}
    (hscan : scan text = .ok located) (hread : Program.ofTokens located = .error error) :
    ∃ i l, located[i]? = some l ∧ error.position = l.position ∧
      ¬Viable ((located.map (·.token)).take (i + 1)) ∧ ∀ j ≤ i, Viable ((located.map (·.token)).take j) := by
  obtain ⟨tokens, htokens, hinner⟩ := tokens_of_layout (scan_eq_ok_iff.1 hscan)
  have hfault : run .start located = .fault error := by
    unfold Program.ofTokens at hread
    rcases run_eq .start htokens hinner with ⟨program, -, hrun⟩ | ⟨-, fault, hrun⟩
    · simp [hrun] at hread
    · rw [hrun] at hread ⊢
      simpa using hread
  obtain ⟨before, l, after, m, rfl, hposition, hsteps, hstep, hend⟩ := run_eq_fault hfault
  refine ⟨before.length, l, by simp, hposition, ?_, ?_⟩
  · have hsplit : (before ++ l :: after).map (·.token) =
        before.map (·.token) ++ [l.token] ++ after.map (·.token) := by
      simp
    rw [hsplit, List.take_left' (by simp)]
    exact not_viable_of_refused hsteps hstep hend
  · intro j hj
    have htake : ((before ++ l :: after).map (·.token)).take j = (before.map (·.token)).take j := by
      simp [List.take_append, Nat.sub_eq_zero_of_le hj]
    rw [htake, viable_iff_steps fun hmem => hsteps.endOfInput_not_mem (List.mem_of_mem_take hmem)]
    rw [← List.take_append_drop j (before.map (·.token))] at hsteps
    obtain ⟨s, hs, -⟩ := Steps.append_iff.1 hsteps
    exact ⟨s, hs⟩

def unnamed : String := "PROGRAM p\nBEGIN\n  SET := 1\nEND"

def unnamedTokens : List Located :=
  [⟨.keyword .PROGRAM, ⟨1, 1⟩⟩, ⟨.name "p", ⟨1, 9⟩⟩, ⟨.keyword .BEGIN, ⟨2, 1⟩⟩, ⟨.keyword .SET, ⟨3, 3⟩⟩,
    ⟨.symbol .assign, ⟨3, 7⟩⟩, ⟨.number 1, ⟨3, 10⟩⟩, ⟨.keyword .END, ⟨4, 1⟩⟩, ⟨.endOfInput, ⟨4, 4⟩⟩]

theorem Program.fault_at_first_bad_token_unnamed :
    scan unnamed = .ok unnamedTokens ∧
      Program.ofTokens unnamedTokens = .error ⟨⟨3, 7⟩, .expectedName (.symbol .assign)⟩ ∧
      ∃ i l, unnamedTokens[i]? = some l ∧ (⟨3, 7⟩ : Position) = l.position ∧
        ¬Viable ((unnamedTokens.map (·.token)).take (i + 1)) ∧
        ∀ j ≤ i, Viable ((unnamedTokens.map (·.token)).take j) := by
  have hscan : scan unnamed = .ok unnamedTokens := by rfl
  have hread : Program.ofTokens unnamedTokens = .error ⟨⟨3, 7⟩, .expectedName (.symbol .assign)⟩ := by rfl
  exact ⟨hscan, hread, fault_at_first_bad_token hscan hread⟩

end KnightCode
