import KnightCode.Proofs.Lexemes
import KnightCode.Proofs.Work

/-!
# Scanning finds the layout of a text

The tokens that scanning gives are those of the layout of the text, each where it starts, and every layout is found.
-/

namespace KnightCode

namespace Scanner

variable {s s' : Scanner} {before begun rest : List Char} {tokens : List Located} {c : Char}

/-! ## What a step does -/

/-- The scanner is in the middle of `begun`, which stands after the part `before` of the text. -/
def Began (s : Scanner) (before begun : List Char) : Prop :=
  s.position = positionAt (before ++ begun) ∧
    match s.mode with
    | .between => begun = []
    | .comment => ∃ body, begun = '#' :: body ∧ '\n' ∉ body
    | .text start seen => start = positionAt before ∧ ∃ body, begun = '"' :: body ∧ unescape? body = some seen.reverse
    | .escape start seen =>
      start = positionAt before ∧ ∃ body, begun = '"' :: (body ++ ['\\']) ∧ unescape? body = some seen.reverse
    | .number start seen => start = positionAt before ∧ begun = seen.reverse ∧ seen ≠ [] ∧ ∀ c ∈ seen, c.isDigit
    | .word start seen => start = positionAt before ∧ begun = seen.reverse ∧ IsWord begun
    | .less start => start = positionAt before ∧ begun = ['<']
    | .colon start => start = positionAt before ∧ begun = [':']

theorem began_between (hp : s.position = positionAt before) (hm : s.mode = .between) : s.Began before [] := by
  unfold Began
  rw [hm, List.append_nil]
  exact ⟨hp, rfl⟩

/-- One more character: what has begun goes on, or it is a whole gap or a whole token now. -/
inductive Advances (s : Scanner) (before begun : List Char) (s' : Scanner) : Prop
  | within : s'.tokens = s.tokens → s'.Began before begun → Advances s before begun s'
  | gap : s'.tokens = s.tokens → Gap begun → s'.Began (before ++ begun) [] → Advances s before begun s'
  | token {t : Token} : s'.tokens = ⟨t, positionAt before⟩ :: s.tokens → t.Spells begun → (∀ rest, t.StopsAt rest) →
      s'.Began (before ++ begun) [] → Advances s before begun s'

theorem position_after {p : Position} (h : p = positionAt (before ++ begun)) :
    p.after c = positionAt (before ++ (begun ++ [c])) := by
  rw [h, ← List.append_assoc, positionAt_snoc]

theorem spells_of_symbol? {sign : Symbol} (h : symbol? c = some sign) :
    (Token.symbol sign).Spells [c] ∧ ∀ rest, (Token.symbol sign).StopsAt rest := by
  unfold symbol? at h
  split at h <;> cases h <;> exact ⟨rfl, fun _ => trivial⟩

theorem startToken_advances (hp : s.position = positionAt before) (h : s.startToken c = .ok s') :
    Advances s before [c] s' := by
  have hnext : s.position.after c = positionAt (before ++ [c]) := by rw [hp, positionAt_snoc]
  -- In the order of the scanner: a blank, a comment, the two signs that may go on, a text, a number, a word, a sign.
  unfold startToken at h
  split at h
  · next hblank =>
    cases h
    exact .gap rfl (.blank hblank .nil) (began_between hnext rfl)
  split at h
  · next heq =>
    cases h
    exact .within rfl ⟨hnext, [], by rw [heq], by simp⟩
  split at h
  · next heq =>
    cases h
    exact .within rfl ⟨hnext, hp, by rw [heq]⟩
  split at h
  · next heq =>
    cases h
    exact .within rfl ⟨hnext, hp, by rw [heq]⟩
  split at h
  · next heq =>
    cases h
    exact .within rfl ⟨hnext, hp, [], by rw [heq], rfl⟩
  split at h
  · next hdigit =>
    cases h
    exact .within rfl ⟨hnext, hp, rfl, by simp, by simpa using hdigit⟩
  split at h
  · next hname =>
    cases h
    exact .within rfl ⟨hnext, hp, rfl, c, [], rfl, hname, by simp⟩
  split at h
  · next sign hsign =>
    cases h
    obtain ⟨hspells, hstops⟩ := spells_of_symbol? hsign
    exact .token (by rw [← hp]; rfl) hspells hstops (began_between hnext rfl)
  · cases h

/-! ## Where a token stops -/

def Stops (s : Scanner) (c : Char) : Prop :=
  match s.mode with
  | .number .. => ¬c.isDigit
  | .word .. => ¬isNameFollow c
  | .less _ => c ≠ '>'
  | _ => False

theorem spells_number {lexeme : List Char} (hne : lexeme ≠ []) (hdigits : ∀ c ∈ lexeme, c.isDigit)
    (h : valueOfDigits lexeme ≤ 2147483647) : (Token.number (Int32.ofNat (valueOfDigits lexeme))).Spells lexeme := by
  have hvalue : valueOfDigits lexeme = Nat.ofDigitChars 10 lexeme 0 := Nat.ofDigitChars_eq_foldl.symm
  rw [hvalue] at h ⊢
  exact ⟨hne, hdigits, h, Int32.toInt_ofNat_of_lt (by omega)⟩

theorem spells_wordToken {lexeme : List Char} (h : IsWord lexeme) :
    (wordToken (String.ofList lexeme)).Spells lexeme := by
  unfold wordToken
  cases hword : Keyword.ofSpelling? (String.ofList lexeme) with
  | some k =>
    have hk : k.spelling = String.ofList lexeme := by simpa using List.find?_some hword
    simp [Token.Spells, hk]
  | none =>
    have hnone : ∀ k : Keyword, k.spelling ≠ String.ofList lexeme := fun k => by
      simpa using List.find?_eq_none.mp hword k k.mem_all
    simp [Token.Spells, IsName, h, hnone]

theorem stopsAt_wordToken (word : String) (h : ∀ c ∈ rest.head?, ¬isNameFollow c) : (wordToken word).StopsAt rest := by
  unfold wordToken
  split <;> exact h

theorem Began.endToken_cases (h : s.Began before begun) (hs : s.endToken = .ok s') :
    ((∀ c, ¬s.Stops c) ∧ LastGap begun ∧ s'.position = s.position ∧ s'.tokens = s.tokens) ∨
      ∃ t, s' = ⟨.between, s.position, ⟨t, positionAt before⟩ :: s.tokens⟩ ∧ t.Spells begun ∧
        ∀ rest : List Char, (∀ c ∈ rest.head?, s.Stops c) → t.StopsAt rest := by
  obtain ⟨mode, position, tokens⟩ := s
  obtain ⟨-, h⟩ := h
  cases mode with
  | between =>
    cases hs
    subst h
    exact .inl ⟨fun _ => id, .gap .nil, rfl, rfl⟩
  | comment =>
    cases hs
    obtain ⟨body, rfl, hbody⟩ := h
    exact .inl ⟨fun _ => id, .comment .nil hbody, rfl, rfl⟩
  | number start seen =>
    obtain ⟨rfl, rfl, hne, hdigits⟩ := h
    simp only [Scanner.endToken] at hs
    split at hs
    · next hle =>
      cases hs
      exact .inr ⟨_, rfl, spells_number (by simpa using hne) (by simpa using hdigits) hle, fun _ => id⟩
    · cases hs
  | word start seen =>
    obtain ⟨rfl, rfl, hword⟩ := h
    cases hs
    exact .inr ⟨_, rfl, spells_wordToken hword, fun _ => stopsAt_wordToken _⟩
  | less start =>
    obtain ⟨rfl, rfl⟩ := h
    cases hs
    refine .inr ⟨_, rfl, rfl, fun rest hrest => ?_⟩
    intro heq
    exact hrest '>' heq rfl
  | colon => cases hs
  | text => cases hs
  | escape => cases hs

theorem Began.step_cases (h : s.Began before begun) (hs : s.step c = .ok s') :
    Advances s before (begun ++ [c]) s' ∨
      s.Stops c ∧ ∃ ended, s.endToken = .ok ended ∧ ended.startToken c = .ok s' := by
  obtain ⟨mode, position, tokens⟩ := s
  obtain ⟨hp, h⟩ := h
  have hnext : position.after c = positionAt (before ++ (begun ++ [c])) := position_after hp
  cases mode with
  | between =>
    subst h
    exact .inl (startToken_advances (by simpa using hp) hs)
  | comment =>
    obtain ⟨body, rfl, hbody⟩ := h
    cases hs
    by_cases hc : c = '\n'
    · subst hc
      exact .inl (.gap rfl (.comment hbody .nil) (began_between hnext rfl))
    · exact .inl (.within rfl ⟨hnext, by simp [enter, hc, hbody, Ne.symm hc]⟩)
  | text start seen =>
    obtain ⟨rfl, body, rfl, hbody⟩ := h
    simp only [step] at hs
    split at hs
    · next heq =>
      cases hs
      subst heq
      exact .inl (.token rfl ⟨body, rfl, by simpa using hbody⟩ (fun _ => trivial) (began_between hnext rfl))
    · next hquote =>
      split at hs
      · next heq =>
        cases hs
        subst heq
        exact .inl (.within rfl ⟨hnext, rfl, body, rfl, hbody⟩)
      · next hslash =>
        cases hs
        refine .inl (.within rfl ⟨hnext, rfl, body ++ [c], rfl, ?_⟩)
        simp [unescape?_append hbody, unescape?, hquote, hslash]
  | escape start seen =>
    obtain ⟨rfl, body, rfl, hbody⟩ := h
    simp only [step] at hs
    split at hs
    · next hc =>
      cases hs
      refine .inl (.within rfl ⟨hnext, rfl, body ++ ['\\', c], by simp, ?_⟩)
      simp only [Bool.or_eq_true, decide_eq_true_eq] at hc
      simp [unescape?_append hbody, unescape?, hc]
    · cases hs
  | number start seen =>
    obtain ⟨rfl, rfl, hne, hdigits⟩ := h
    simp only [step] at hs
    split at hs
    · next hc =>
      cases hs
      exact .inl (.within rfl ⟨hnext, rfl, by simp, by simp, by simpa [hc] using hdigits⟩)
    · next hc => exact .inr ⟨hc, except_bind_eq_ok.mp hs⟩
  | word start seen =>
    obtain ⟨rfl, rfl, first, follow, hseen, hfirst, hfollow⟩ := h
    simp only [step] at hs
    split at hs
    · next hc =>
      cases hs
      refine .inl (.within rfl ⟨hnext, rfl, by simp, first, follow ++ [c], by simp [hseen], hfirst, ?_⟩)
      intro d hd
      rcases List.mem_append.mp hd with hd | hd
      · exact hfollow d hd
      · rwa [List.mem_singleton.mp hd]
    · next hc => exact .inr ⟨hc, except_bind_eq_ok.mp hs⟩
  | less start =>
    obtain ⟨rfl, rfl⟩ := h
    simp only [step] at hs
    split at hs
    · next heq =>
      cases hs
      subst heq
      exact .inl (.token rfl rfl (fun _ => trivial) (began_between hnext rfl))
    · next hc => exact .inr ⟨hc, except_bind_eq_ok.mp hs⟩
  | colon start =>
    obtain ⟨rfl, rfl⟩ := h
    simp only [step] at hs
    split at hs
    · next heq =>
      cases hs
      subst heq
      exact .inl (.token rfl rfl (fun _ => trivial) (began_between hnext rfl))
    · cases hs

/-! ## What a run finds -/

def given (s : Scanner) : List Located := (⟨.endOfInput, s.position⟩ :: s.tokens).reverse

/-- From `s` to `s'` the scanner found the tokens of the text `rest` that stands after `before`. -/
def Finds (s s' : Scanner) (before rest : List Char) : Prop :=
  ∃ tokens, s'.given = s.tokens.reverse ++ tokens ∧ Layout before rest tokens

theorem Finds.of_token {t : Token} {ended : Scanner} {lexeme : List Char} (hspells : t.Spells lexeme)
    (hstops : t.StopsAt rest) (htokens : ended.tokens = ⟨t, positionAt before⟩ :: s.tokens)
    (h : Finds ended s' (before ++ lexeme) rest) : Finds s s' before (lexeme ++ rest) := by
  obtain ⟨tokens, hgiven, hlayout⟩ := h
  refine ⟨⟨t, positionAt before⟩ :: tokens, ?_, hlayout.of_token hspells hstops⟩
  rw [hgiven, htokens, List.reverse_cons, List.append_assoc, List.singleton_append]

theorem run_cons_eq_ok : s.run (c :: rest) = .ok s' ↔ ∃ next, s.step c = .ok next ∧ next.run rest = .ok s' := by
  rw [run]
  cases s.step c <;> simp

theorem Advances.finds {next : Scanner} (h : Advances s before begun next)
    (ih : ∀ before begun, next.Began before begun → Finds next s' before (begun ++ rest)) :
    Finds s s' before (begun ++ rest) := by
  cases h with
  | within htokens hbegan =>
    obtain ⟨tokens, hgiven, hlayout⟩ := ih _ _ hbegan
    exact ⟨tokens, by rw [hgiven, htokens], hlayout⟩
  | gap htokens hgap hbegan =>
    obtain ⟨tokens, hgiven, hlayout⟩ := ih _ _ hbegan
    exact ⟨tokens, by rw [hgiven, htokens], hlayout.after hgap⟩
  | token htokens hspells hstops hbegan => exact .of_token hspells (hstops rest) htokens (ih _ _ hbegan)

theorem Began.finds (h : s.Began before begun) (hrun : s.run rest = .ok s') : Finds s s' before (begun ++ rest) := by
  -- On the text that is left: what has begun is a part of it, which grows until it ends.
  induction rest generalizing s before begun with
  | nil =>
    rw [List.append_nil]
    rcases h.endToken_cases hrun with ⟨-, hgap, hp, htokens⟩ | ⟨t, rfl, hspells, hstops⟩
    · refine ⟨[⟨.endOfInput, positionAt (before ++ begun)⟩], ?_, .last hgap⟩
      simp [given, hp, htokens, h.1]
    · refine ⟨[⟨t, positionAt before⟩, ⟨.endOfInput, positionAt (before ++ begun)⟩], by simp [given, h.1], ?_⟩
      have hlast : Layout (before ++ begun) [] [⟨.endOfInput, positionAt (before ++ begun ++ [])⟩] := .last (.gap .nil)
      rw [List.append_nil] at hlast
      simpa using hlast.of_token hspells (hstops [] (by simp))
  | cons c rest ih =>
    obtain ⟨next, hstep, hnext⟩ := run_cons_eq_ok.mp hrun
    rcases h.step_cases hstep with hadvances | ⟨hstop, ended, hended, hstart⟩
    · simpa using hadvances.finds fun _ _ hbegan => ih hbegan hnext
    · rcases h.endToken_cases hended with ⟨hnot, -⟩ | ⟨t, rfl, hspells, hstops⟩
      · exact (hnot c hstop).elim
      · -- The character ends one token and starts the next thing, which begins with it alone.
        have hadvances := startToken_advances (s := ⟨.between, s.position, _⟩) h.1 hstart
        have hrest := hadvances.finds fun _ _ hbegan => ih hbegan hnext
        exact .of_token hspells (hstops (c :: rest) (by simpa using hstop)) rfl hrest

/-! ## Runs over a layout -/

theorem run_step (h : s.step c = .ok s') (rest : List Char) : s.run (c :: rest) = s'.run rest := by rw [run, h]

theorem run_walk (mode : List Char → ScanMode) {chars : List Char}
    (h : ∀ c ∈ chars, ∀ seen position, (⟨mode seen, position, tokens⟩ : Scanner).step c =
      .ok ⟨mode (c :: seen), position.after c, tokens⟩) (before seen rest : List Char) :
    (⟨mode seen, positionAt before, tokens⟩ : Scanner).run (chars ++ rest) =
      (⟨mode (chars.reverse ++ seen), positionAt (before ++ chars), tokens⟩ : Scanner).run rest := by
  induction chars generalizing before seen with
  | nil => simp
  | cons c chars ih =>
    obtain ⟨hc, hchars⟩ := List.forall_mem_cons.mp h
    rw [List.cons_append, run_step (hc seen _), ← positionAt_snoc, ih hchars]
    simp

theorem step_of_stops (h : s.Stops c) : s.step c = (do (← s.endToken).startToken c) := by
  obtain ⟨mode, position, tokens⟩ := s
  unfold Stops at h
  unfold step
  cases mode with
  | number => exact if_neg h
  | word => exact if_neg h
  | less => exact if_neg h
  | between => exact h.elim
  | comment => exact h.elim
  | text => exact h.elim
  | escape => exact h.elim
  | colon => exact h.elim

theorem run_of_stops {position : Position} (h : ∀ c ∈ rest.head?, s.Stops c)
    (hs : s.endToken = .ok ⟨.between, position, tokens⟩) :
    s.run rest = (⟨.between, position, tokens⟩ : Scanner).run rest := by
  cases rest with
  | nil => exact hs
  | cons c rest =>
    have hc : s.Stops c := h c rfl
    rw [run, run, step_of_stops hc, hs]
    rfl

theorem run_comment {body : List Char} (h : '\n' ∉ body) (before rest : List Char) :
    (⟨.between, positionAt before, tokens⟩ : Scanner).run ('#' :: (body ++ rest)) =
      (⟨.comment, positionAt (before ++ '#' :: body), tokens⟩ : Scanner).run rest := by
  have hopen : (⟨.between, positionAt before, tokens⟩ : Scanner).step '#' =
      .ok ⟨.comment, positionAt (before ++ ['#']), tokens⟩ := by rw [positionAt_snoc]; rfl
  have hbody : ∀ c ∈ body, ∀ (_ : List Char) position, (⟨.comment, position, tokens⟩ : Scanner).step c =
      .ok ⟨.comment, position.after c, tokens⟩ := by
    intro c hc _ position
    have hne : c ≠ '\n' := fun heq => h (heq ▸ hc)
    simp [step, enter, pass, hne]
  rw [run_step hopen, run_walk (fun _ => .comment) hbody _ [], List.append_assoc, List.singleton_append]

theorem run_gap {gap : List Char} (h : Gap gap) (before rest : List Char) :
    (⟨.between, positionAt before, tokens⟩ : Scanner).run (gap ++ rest) =
      (⟨.between, positionAt (before ++ gap), tokens⟩ : Scanner).run rest := by
  induction h generalizing before with
  | nil => simp
  | @blank c gap hc _ ih =>
    have hstep : (⟨.between, positionAt before, tokens⟩ : Scanner).step c =
        .ok ⟨.between, positionAt (before ++ [c]), tokens⟩ := by
      simp [step, startToken, enter, pass, hc, positionAt_snoc]
    rw [List.cons_append, run_step hstep, ih]
    simp
  | @comment body gap hbody _ ih =>
    have hclose : (⟨.comment, positionAt (before ++ '#' :: body), tokens⟩ : Scanner).step '\n' =
        .ok ⟨.between, positionAt (before ++ '#' :: body ++ ['\n']), tokens⟩ := by rw [positionAt_snoc]; rfl
    rw [List.cons_append, List.append_assoc, run_comment hbody, List.cons_append, run_step hclose, ih]
    simp

theorem toNat_of_isAlpha (h : c.isAlpha) : (65 ≤ c.toNat ∧ c.toNat ≤ 90) ∨ (97 ≤ c.toNat ∧ c.toNat ≤ 122) := by
  delta Char.isAlpha Char.isUpper Char.isLower at h
  simp only [Bool.or_eq_true, Bool.and_eq_true, decide_eq_true_eq, ge_iff_le, UInt32.le_iff_toNat_le] at h
  exact h

theorem toNat_of_isDigit (h : c.isDigit) : 48 ≤ c.toNat ∧ c.toNat ≤ 57 := by
  delta Char.isDigit at h
  simp only [Bool.and_eq_true, decide_eq_true_eq, ge_iff_le, UInt32.le_iff_toNat_le] at h
  exact h

theorem plain_of_isNameFollow (h : isNameFollow c) :
    isBlank c = false ∧ c ≠ '#' ∧ c ≠ '<' ∧ c ≠ ':' ∧ c ≠ '"' := by
  refine ⟨?_, ?_, ?_, ?_, ?_⟩
  · have hcode : (65 ≤ c.toNat ∧ c.toNat ≤ 90) ∨ (97 ≤ c.toNat ∧ c.toNat ≤ 122) ∨ (48 ≤ c.toNat ∧ c.toNat ≤ 57) ∨
        c.toNat = 95 := by
      simp only [isNameFollow, Char.isAlphanum, Bool.or_eq_true, beq_iff_eq] at h
      rcases h with (h | h) | rfl
      · have := toNat_of_isAlpha h
        omega
      · exact .inr (.inr (.inl (toNat_of_isDigit h)))
      · exact .inr (.inr (.inr rfl))
    simp only [isBlank, Bool.or_eq_false_iff, Bool.and_eq_false_iff, decide_eq_false_iff_not, beq_eq_false_iff_ne]
    omega
  all_goals
    rintro rfl
    revert h
    decide

theorem startToken_digit (h : c.isDigit) : s.startToken c = .ok (s.enter c (.number s.position [c])) := by
  have hfollow : isNameFollow c := by simp [isNameFollow, Char.isAlphanum, h]
  obtain ⟨hblank, hcomment, hless, hcolon, hquote⟩ := plain_of_isNameFollow hfollow
  simp [startToken, hblank, hcomment, hless, hcolon, hquote, h]

theorem startToken_name (h : isNameStart c) : s.startToken c = .ok (s.enter c (.word s.position [c])) := by
  have hfollow : isNameFollow c := by
    simp only [isNameStart, Bool.or_eq_true] at h
    rcases h with h | h <;> simp [isNameFollow, Char.isAlphanum, h]
  obtain ⟨hblank, hcomment, hless, hcolon, hquote⟩ := plain_of_isNameFollow hfollow
  have hdigit : c.isDigit = false := by
    rw [Bool.eq_false_iff]
    intro hdigit
    have hcode := toNat_of_isDigit hdigit
    simp only [isNameStart, Bool.or_eq_true, beq_iff_eq] at h
    rcases h with h | rfl
    · have := toNat_of_isAlpha h
      omega
    · cases hdigit
  simp [startToken, hblank, hcomment, hless, hcolon, hquote, hdigit, h]

/-- Between tokens, the scanner makes this token of these characters. -/
def Takes (lexeme rest : List Char) (t : Token) : Prop :=
  ∀ before tokens, (⟨.between, positionAt before, tokens⟩ : Scanner).run (lexeme ++ rest) =
    (⟨.between, positionAt (before ++ lexeme), ⟨t, positionAt before⟩ :: tokens⟩ : Scanner).run rest

/-- A token of one mode: its first character enters the mode, the others keep it, and the rest ends it. -/
theorem takes_of_walk (mode : Position → List Char → ScanMode) {chars : List Char} {t : Token}
    (hfirst : ∀ s : Scanner, s.startToken c = .ok (s.enter c (mode s.position [c])))
    (hnext : ∀ d ∈ chars, ∀ start seen position tokens, (⟨mode start seen, position, tokens⟩ : Scanner).step d =
      .ok ⟨mode start (d :: seen), position.after d, tokens⟩)
    (hstops : ∀ d ∈ rest.head?, ∀ start seen position tokens, Stops ⟨mode start seen, position, tokens⟩ d)
    (hend : ∀ start position tokens, (⟨mode start (c :: chars).reverse, position, tokens⟩ : Scanner).endToken =
      .ok ⟨.between, position, ⟨t, start⟩ :: tokens⟩) : Takes (c :: chars) rest t := by
  intro before tokens
  have hstep : (⟨.between, positionAt before, tokens⟩ : Scanner).step c =
      .ok ⟨mode (positionAt before) [c], positionAt (before ++ [c]), tokens⟩ := by
    rw [positionAt_snoc]
    exact hfirst _
  rw [List.cons_append, run_step hstep, run_walk (mode (positionAt before)) fun d hd seen p => hnext d hd _ seen p _]
  rw [← List.reverse_cons, run_of_stops (fun d hd => hstops d hd _ _ _ _) (hend _ _ _)]
  simp

theorem takes_number {lexeme : List Char} (hne : lexeme ≠ []) (hdigits : ∀ c ∈ lexeme, c.isDigit)
    (h : valueOfDigits lexeme ≤ 2147483647) (hstops : ∀ c ∈ rest.head?, ¬c.isDigit) :
    Takes lexeme rest (.number (Int32.ofNat (valueOfDigits lexeme))) := by
  obtain ⟨c, chars, rfl⟩ := List.exists_cons_of_ne_nil hne
  obtain ⟨hc, hchars⟩ := List.forall_mem_cons.mp hdigits
  refine takes_of_walk .number (fun s => startToken_digit hc) (fun d hd start seen position tokens => ?_)
    (fun d hd _ _ _ _ => hstops d hd) (fun start position tokens => ?_)
  · exact if_pos (hchars d hd)
  · simp [endToken, emit, h]

theorem takes_word {lexeme : List Char} (h : IsWord lexeme) (hstops : ∀ c ∈ rest.head?, ¬isNameFollow c) :
    Takes lexeme rest (wordToken (String.ofList lexeme)) := by
  obtain ⟨c, chars, rfl, hc, hchars⟩ := h
  refine takes_of_walk .word (fun s => startToken_name hc) (fun d hd start seen position tokens => ?_)
    (fun d hd _ _ _ _ => hstops d hd) (fun start position tokens => ?_)
  · exact if_pos (hchars d hd)
  · simp [endToken, emit]

theorem run_quoted {body value : List Char} (h : unescape? body = some value) (start : Position)
    (before seen rest : List Char) :
    (⟨.text start seen, positionAt before, tokens⟩ : Scanner).run (body ++ rest) =
      (⟨.text start (value.reverse ++ seen), positionAt (before ++ body), tokens⟩ : Scanner).run rest := by
  fun_induction unescape? body generalizing before seen value with
  | case1 =>
    cases h
    simp
  | case2 c body hc ih =>
    simp only [Option.map_eq_some_iff] at h
    obtain ⟨value, hvalue, rfl⟩ := h
    have hslash : (⟨.text start seen, positionAt before, tokens⟩ : Scanner).step '\\' =
        .ok ⟨.escape start seen, positionAt (before ++ ['\\']), tokens⟩ := by rw [positionAt_snoc]; rfl
    have hescape : (⟨.escape start seen, positionAt (before ++ ['\\']), tokens⟩ : Scanner).step c =
        .ok ⟨.text start (c :: seen), positionAt (before ++ ['\\'] ++ [c]), tokens⟩ := by
      rw [positionAt_snoc _ c]
      simp [step, enter, pass, hc]
    rw [List.cons_append, run_step hslash, List.cons_append, run_step hescape, ih hvalue]
    simp
  | case3 => cases h
  | case4 => cases h
  | case5 c body _ hc ih =>
    simp only [Option.map_eq_some_iff] at h
    obtain ⟨value, hvalue, rfl⟩ := h
    have hstep : (⟨.text start seen, positionAt before, tokens⟩ : Scanner).step c =
        .ok ⟨.text start (c :: seen), positionAt (before ++ [c]), tokens⟩ := by
      obtain ⟨hquote, hslash⟩ := not_or.mp hc
      simp [step, enter, pass, hquote, hslash, positionAt_snoc]
    rw [List.cons_append, run_step hstep, ih hvalue]
    simp

theorem takes_text {body : List Char} {value : String} (h : unescape? body = some value.toList) :
    Takes ('"' :: (body ++ ['"'])) rest (.text value) := by
  intro before tokens
  have hopen : (⟨.between, positionAt before, tokens⟩ : Scanner).step '"' =
      .ok ⟨.text (positionAt before) [], positionAt (before ++ ['"']), tokens⟩ := by rw [positionAt_snoc]; rfl
  have hclose : (⟨.text (positionAt before) (value.toList.reverse ++ []), positionAt (before ++ ['"'] ++ body), tokens⟩ :
      Scanner).step '"' = .ok ⟨.between, positionAt (before ++ ['"'] ++ body ++ ['"']),
        ⟨.text value, positionAt before⟩ :: tokens⟩ := by
    rw [positionAt_snoc (before ++ ['"'] ++ body)]
    simp [step, emit, pass]
  rw [List.cons_append, run_step hopen, List.append_assoc, run_quoted h, List.singleton_append, run_step hclose]
  simp

theorem takes_one {t : Token} (h : ∀ position tokens, (⟨.between, position, tokens⟩ : Scanner).step c =
    .ok ⟨.between, position.after c, ⟨t, position⟩ :: tokens⟩) : Takes [c] rest t := by
  intro before tokens
  rw [positionAt_snoc]
  exact run_step (h _ _) rest

theorem takes_two (mode : Position → ScanMode) {d : Char} {t : Token}
    (hc : ∀ position tokens, (⟨.between, position, tokens⟩ : Scanner).step c =
      .ok ⟨mode position, position.after c, tokens⟩)
    (hd : ∀ start position tokens, (⟨mode start, position, tokens⟩ : Scanner).step d =
      .ok ⟨.between, position.after d, ⟨t, start⟩ :: tokens⟩) : Takes [c, d] rest t := by
  intro before tokens
  have hposition : positionAt (before ++ [c, d]) = ((positionAt before).after c).after d := by
    rw [← positionAt_snoc, ← positionAt_snoc, List.append_assoc, List.singleton_append]
  rw [hposition]
  exact (run_step (hc _ _) _).trans (run_step (hd _ _ _) rest)

theorem takes_symbol {sign : Symbol} (hstops : (Token.symbol sign).StopsAt rest) :
    Takes sign.spelling.toList rest (.symbol sign) := by
  cases sign with
  | plus => exact takes_one (c := '+') fun _ _ => rfl
  | minus => exact takes_one (c := '-') fun _ _ => rfl
  | star => exact takes_one (c := '*') fun _ _ => rfl
  | slash => exact takes_one (c := '/') fun _ _ => rfl
  | greater => exact takes_one (c := '>') fun _ _ => rfl
  | equal => exact takes_one (c := '=') fun _ _ => rfl
  | openParen => exact takes_one (c := '(') fun _ _ => rfl
  | closeParen => exact takes_one (c := ')') fun _ _ => rfl
  | assign => exact takes_two .colon (c := ':') (d := '=') (fun _ _ => rfl) fun _ _ _ => rfl
  | different => exact takes_two .less (c := '<') (d := '>') (fun _ _ => rfl) fun _ _ _ => rfl
  | less =>
    have hrest : ∀ c ∈ rest.head?, c ≠ '>' := fun c hc heq => hstops (heq ▸ hc)
    exact takes_of_walk (fun start _ => .less start) (c := '<') (fun _ => rfl) (by simp) (fun d hd _ _ _ _ => hrest d hd)
      fun _ _ _ => rfl

theorem takes_of_spells {t : Token} {lexeme : List Char} (h : t.Spells lexeme) (hstops : t.StopsAt rest) :
    Takes lexeme rest t := by
  cases t with
  | number value =>
    obtain ⟨hne, hdigits, hle, hvalue⟩ := h
    have hof : Nat.ofDigitChars 10 lexeme 0 = valueOfDigits lexeme := Nat.ofDigitChars_eq_foldl
    rw [hof] at hle hvalue
    have heq : Int32.ofNat (valueOfDigits lexeme) = value := by
      apply Int32.toInt_inj.mp
      rw [hvalue, Int32.toInt_ofNat_of_lt (by omega)]
    exact heq ▸ takes_number hne hdigits hle hstops
  | text value =>
    obtain ⟨body, rfl, hbody⟩ := h
    exact takes_text hbody
  | name spelled =>
    obtain ⟨rfl, hword, hname⟩ := h
    have htoken : wordToken (String.ofList spelled.toList) = .name spelled := by
      have hnone : Keyword.ofSpelling? spelled = none := by
        apply List.find?_eq_none.mpr
        intro k _
        simpa using hname k
      simp [wordToken, hnone]
    exact htoken ▸ takes_word hword hstops
  | keyword word =>
    have htoken : wordToken (String.ofList word.spelling.toList) = .keyword word := by
      cases word <;> decide
    have hword : IsWord word.spelling.toList := by
      cases word <;> exact ⟨_, _, rfl, by decide, List.all_eq_true.1 (by decide)⟩
    subst h
    exact htoken ▸ takes_word hword hstops
  | symbol sign =>
    subst h
    exact takes_symbol hstops
  | endOfInput => exact h.elim

theorem run_layout (h : Layout before rest tokens) (found : List Located) : ∃ s,
    (⟨.between, positionAt before, found⟩ : Scanner).run rest = .ok s ∧ s.given = found.reverse ++ tokens := by
  -- On the layout, from any tokens found: each of its tokens is taken whole and put before those.
  induction h generalizing found with
  | @last before gap hgap =>
    cases hgap with
    | gap hgap =>
      refine ⟨⟨.between, positionAt (before ++ gap), found⟩, ?_, by simp [given]⟩
      rw [← List.append_nil gap, run_gap hgap, List.append_nil]
      rfl
    | @comment gap body hgap hbody =>
      refine ⟨⟨.comment, positionAt (before ++ (gap ++ '#' :: body)), found⟩, ?_, by simp [given]⟩
      rw [run_gap hgap, ← List.append_nil body, run_comment hbody, List.append_nil, List.append_assoc]
      rfl
  | @token before gap lexeme rest t tokens hgap hspells hstops _ ih =>
    obtain ⟨s, hrun, hgiven⟩ := ih (⟨t, positionAt (before ++ gap)⟩ :: found)
    refine ⟨s, ?_, by simp [hgiven]⟩
    rw [run_gap hgap, takes_of_spells hspells hstops, List.append_assoc, hrun]

end Scanner

/-! ## Tokens that are written out -/

theorem Token.stopsAt_of_head {rest : List Char} (t : Token) (h : ∀ c ∈ rest.head?, isBlank c ∨ c = '#') :
    t.StopsAt rest := by
  have hplain : ∀ c ∈ rest.head?, ¬Scanner.isNameFollow c := by
    intro c hc hfollow
    obtain ⟨hblank, hcomment, -⟩ := Scanner.plain_of_isNameFollow hfollow
    rcases h c hc with hc | hc
    · simp [hc] at hblank
    · exact hcomment hc
  cases t with
  | number value => exact fun c hc hdigit => hplain c hc (by simp [Scanner.isNameFollow, Char.isAlphanum, hdigit])
  | name spelled => exact hplain
  | keyword word => exact hplain
  | symbol sign =>
    cases sign with
    | less =>
      intro hgreater
      revert h
      simp only [hgreater, Option.mem_some_iff, forall_eq']
      decide
    | _ => trivial
  | _ => trivial

theorem layout_written {pieces : List (List Char × Token)} {last : List Char}
    (hpieces : ∀ piece ∈ pieces, Gap piece.1 ∧ piece.2.Writable) (hgaps : ∀ piece ∈ pieces.tail, piece.1 ≠ [])
    (hlast : LastGap last) (before : List Char) : ∃ tokens, Layout before (written pieces last) tokens ∧
      tokens.map (·.token) = pieces.map (·.2) ++ [Token.endOfInput] := by
  induction pieces generalizing before with
  | nil => exact ⟨_, .last hlast, rfl⟩
  | cons piece pieces ih =>
    obtain ⟨⟨hgap, hwritable⟩, hpieces⟩ := List.forall_mem_cons.mp hpieces
    rw [List.tail_cons] at hgaps
    -- After a token comes a gap that is not empty, or the end.
    have hhead : ∀ c ∈ (written pieces last).head?, isBlank c ∨ c = '#' := by
      cases pieces with
      | nil => exact fun c => hlast.head
      | cons next pieces =>
        intro c hc
        obtain ⟨d, gap, hcons⟩ := List.exists_cons_of_ne_nil (hgaps next List.mem_cons_self)
        apply (hpieces next List.mem_cons_self).1.head
        simpa [written, hcons] using hc
    obtain ⟨tokens, hlayout, htokens⟩ := ih hpieces (fun q hq => hgaps q (List.mem_of_mem_tail hq))
      (before ++ (piece.1 ++ piece.2.spelling))
    refine ⟨⟨piece.2, positionAt (before ++ piece.1)⟩ :: tokens, ?_, by simp [htokens]⟩
    exact .token hgap (Token.spells_spelling hwritable) (Token.stopsAt_of_head _ hhead) hlayout

theorem scan_eq_ok_iff {text : String} {tokens : List Located} :
    scan text = .ok tokens ↔ Layout [] text.toList tokens := by
  have hscan : scan text = .ok tokens ↔ ∃ s, Scanner.start.run text.toList = .ok s ∧ s.given = tokens := by
    unfold scan
    rw [except_bind_eq_ok]
    simp [Scanner.given, pure, Except.pure]
  rw [hscan]
  constructor
  · rintro ⟨s, hrun, rfl⟩
    have hbegan : Scanner.start.Began [] [] := ⟨rfl, rfl⟩
    obtain ⟨tokens, hgiven, hlayout⟩ := hbegan.finds hrun
    simpa [hgiven, Scanner.start] using hlayout
  · intro h
    exact Scanner.run_layout h []

/-- Scanning a text gives the tokens of its layout, each where it starts, and fails only where there is no layout. Tokens
that are written out with a gap between any two of them are scanned back. -/
theorem scan_finds_layout :
    (∀ text tokens, scan text = .ok tokens ↔ Layout [] text.toList tokens) ∧
      ∀ (pieces : List (List Char × Token)) (last : List Char),
        (∀ piece ∈ pieces, Gap piece.1 ∧ piece.2.Writable) → (∀ piece ∈ pieces.tail, piece.1 ≠ []) → LastGap last →
          ∃ tokens, scan (String.ofList (written pieces last)) = .ok tokens ∧
            tokens.map (·.token) = pieces.map (·.2) ++ [.endOfInput] := by
  refine ⟨fun text tokens => scan_eq_ok_iff, fun pieces last hpieces hgaps hlast => ?_⟩
  obtain ⟨tokens, hlayout, htokens⟩ := layout_written hpieces hgaps hlast []
  refine ⟨tokens, scan_eq_ok_iff.mpr ?_, htokens⟩
  rwa [String.toList_ofList]

/-- A keyword that goes on as a name, two signs that would be one, a comment with a quote in it, and a text with a quote, a
backslash, a line end and a comment sign. -/
def remarks : List (List Char × Token) :=
  [([], .keyword .IF), ([' '], .name "IF_1"), (['\t'], .symbol .less), (['\n'], .symbol .greater),
    (['#', '"', '\n'], .number 7), (['\u3000'], .text "\"\\\n#")]

theorem scan_finds_layout_remarks :
    (∀ piece ∈ remarks, Gap piece.1 ∧ piece.2.Writable) ∧ (∀ piece ∈ remarks.tail, piece.1 ≠ []) ∧ LastGap ['#'] ∧
      ∃ tokens, scan (String.ofList (written remarks ['#'])) = .ok tokens ∧
        tokens.map (·.token) = remarks.map (·.2) ++ [.endOfInput] := by
  have hname : IsName "IF_1" := by
    refine ⟨⟨'I', ['F', '_', '1'], by decide, by decide, List.all_eq_true.1 (by decide)⟩, fun k => ?_⟩
    cases k <;> decide
  have hnumber : 0 ≤ (7 : Int32).toInt := by decide
  have hcomment : Gap ('#' :: (['"'] ++ '\n' :: [])) := .comment (by decide) .nil
  have hpieces : ∀ piece ∈ remarks, Gap piece.1 ∧ piece.2.Writable := by
    simp only [remarks, List.forall_mem_cons]
    refine ⟨⟨.nil, trivial⟩, ⟨.blank (by decide) .nil, hname⟩, ⟨.blank (by decide) .nil, trivial⟩,
      ⟨.blank (by decide) .nil, trivial⟩, ⟨hcomment, hnumber⟩, ⟨.blank (by decide) .nil, trivial⟩, by simp⟩
  have hgaps : ∀ piece ∈ remarks.tail, piece.1 ≠ [] := by decide
  have hlast : LastGap ([] ++ '#' :: []) := .comment .nil (by decide)
  exact ⟨hpieces, hgaps, hlast, scan_finds_layout.2 remarks ['#'] hpieces hgaps hlast⟩

end KnightCode
