import KnightCode.Source.Scanning

/-!
# The layout of a text

A text is a sequence of spelled tokens with gaps before, between and after them. A gap is made of blanks and comments.
A token ends where it could not go on: `Layout` says which located tokens a text holds, without any scanning.
-/

namespace KnightCode

/-! ## Positions -/

/-- Where the character after this text stands: after so many lines, and so many characters of its own line. -/
def positionAt (before : List Char) : Position :=
  ⟨1 + before.count '\n', 1 + (before.reverse.takeWhile (· ≠ '\n')).length⟩

theorem positionAt_snoc (before : List Char) (c : Char) :
    positionAt (before ++ [c]) = (positionAt before).after c := by
  unfold positionAt Position.after
  by_cases h : c = '\n'
  · simp [h, Nat.add_assoc]
  · simp [h, Nat.add_comm]

/-! ## Gaps -/

/-- A comment goes on to the end of its line. -/
inductive Gap : List Char → Prop
  | nil : Gap []
  | blank {c : Char} {gap : List Char} : isBlank c → Gap gap → Gap (c :: gap)
  | comment {body gap : List Char} : '\n' ∉ body → Gap gap → Gap ('#' :: (body ++ '\n' :: gap))

/-- A gap at the end of a text, where a comment may end with the text. -/
inductive LastGap : List Char → Prop
  | gap {gap : List Char} : Gap gap → LastGap gap
  | comment {gap body : List Char} : Gap gap → '\n' ∉ body → LastGap (gap ++ '#' :: body)

theorem Gap.append {first second : List Char} (h : Gap first) (h' : Gap second) : Gap (first ++ second) := by
  induction h with
  | nil => exact h'
  | blank hc _ ih => exact .blank hc ih
  | comment hbody _ ih =>
    rw [List.cons_append, List.append_assoc, List.cons_append]
    exact .comment hbody ih

theorem Gap.head {gap : List Char} {c : Char} (h : Gap gap) (hc : c ∈ gap.head?) : isBlank c ∨ c = '#' := by
  cases h with
  | nil => cases hc
  | blank hblank =>
    cases hc
    exact .inl hblank
  | comment =>
    cases hc
    exact .inr rfl

theorem LastGap.head {gap : List Char} {c : Char} (h : LastGap gap) (hc : c ∈ gap.head?) : isBlank c ∨ c = '#' := by
  cases h with
  | gap h => exact h.head hc
  | @comment gap body h _ =>
    cases gap with
    | nil =>
      cases hc
      exact .inr rfl
    | cons d gap => exact h.head hc

theorem LastGap.after {first second : List Char} (h : Gap first) (h' : LastGap second) :
    LastGap (first ++ second) := by
  cases h' with
  | gap h' => exact .gap (h.append h')
  | comment h' hbody =>
    rw [← List.append_assoc]
    exact .comment (h.append h') hbody

/-! ## Spellings -/

/-- The characters that stand for these between quotes: a backslash makes a quote or a backslash. -/
def unescape? : List Char → Option (List Char)
  | [] => some []
  | '\\' :: c :: rest => if c = '"' ∨ c = '\\' then (unescape? rest).map (c :: ·) else none
  | c :: rest => if c = '"' ∨ c = '\\' then none else (unescape? rest).map (c :: ·)

theorem unescape?_append {first value : List Char} (h : unescape? first = some value) (second : List Char) :
    unescape? (first ++ second) = (unescape? second).map (value ++ ·) := by
  fun_induction unescape? first generalizing value with
  | case1 =>
    cases h
    simp
  | case2 c rest hc ih =>
    simp only [Option.map_eq_some_iff] at h
    obtain ⟨tail, htail, rfl⟩ := h
    simp [unescape?, hc, ih htail, Function.comp_def]
  | case3 => cases h
  | case4 => cases h
  | case5 c rest hnot hc ih =>
    simp only [Option.map_eq_some_iff] at h
    obtain ⟨tail, htail, rfl⟩ := h
    have hplain : c ≠ '\\' := fun heq => hc (.inr heq)
    rw [List.cons_append, unescape?.eq_3 _ _ (fun _ _ heq => (hplain heq).elim), if_neg hc, ih htail]
    simp [Function.comp_def]

def escaped (value : List Char) : List Char :=
  value.flatMap fun c => if c = '"' ∨ c = '\\' then ['\\', c] else [c]

theorem unescape?_escaped (value : List Char) : unescape? (escaped value) = some value := by
  unfold escaped
  induction value with
  | nil => rfl
  | cons c value ih =>
    have hc : unescape? (if c = '"' ∨ c = '\\' then ['\\', c] else [c]) = some [c] := by
      split
      · next h => simp [unescape?, h]
      · next h => simp [unescape?, h]
    rw [List.flatMap_cons, unescape?_append hc, ih]
    rfl

/-- A letter or `_`, then letters, digits and `_`. -/
def IsWord (lexeme : List Char) : Prop :=
  ∃ c rest, lexeme = c :: rest ∧ Scanner.isNameStart c ∧ ∀ d ∈ rest, Scanner.isNameFollow d

def IsName (name : String) : Prop := IsWord name.toList ∧ ∀ k : Keyword, k.spelling ≠ name

namespace Token

/-- The token can be written like this. -/
def Spells : Token → List Char → Prop
  | .number value, lexeme => lexeme ≠ [] ∧ (∀ c ∈ lexeme, c.isDigit) ∧
      Nat.ofDigitChars 10 lexeme 0 ≤ 2147483647 ∧ value.toInt = Nat.ofDigitChars 10 lexeme 0
  | .text value, lexeme => ∃ body, lexeme = '"' :: (body ++ ['"']) ∧ unescape? body = some value.toList
  | .name spelled, lexeme => lexeme = spelled.toList ∧ IsName spelled
  | .keyword word, lexeme => lexeme = word.spelling.toList
  | .symbol sign, lexeme => lexeme = sign.spelling.toList
  | .endOfInput, _ => False

def Writable : Token → Prop
  | .number value => 0 ≤ value.toInt
  | .name spelled => IsName spelled
  | .endOfInput => False
  | _ => True

def spelling : Token → List Char
  | .number value => Nat.toDigits 10 value.toInt.toNat
  | .text value => '"' :: (escaped value.toList ++ ['"'])
  | .name spelled => spelled.toList
  | .keyword word => word.spelling.toList
  | .symbol sign => sign.spelling.toList
  | .endOfInput => []

theorem spells_spelling {t : Token} (h : t.Writable) : t.Spells t.spelling := by
  cases t with
  | number value =>
    have hvalue : (value.toInt.toNat : Int) = value.toInt := Int.toNat_of_nonneg h
    have hle : value.toInt ≤ 2147483647 := value.toInt_le
    have hdigits : Nat.ofDigitChars 10 (Nat.toDigits 10 value.toInt.toNat) 0 = value.toInt.toNat :=
      Nat.ofDigitChars_ten_toDigits
    refine ⟨Nat.toDigits_ne_nil, fun c hc => Nat.isDigit_of_mem_toDigits (by omega) (by omega) hc, ?_, ?_⟩
    · simp only [spelling]
      omega
    · simp only [spelling]
      omega
  | text value => exact ⟨_, rfl, unescape?_escaped _⟩
  | name spelled => exact ⟨rfl, h⟩
  | keyword word => rfl
  | symbol sign => rfl
  | endOfInput => exact h.elim

/-- The token cannot go on with the rest of the text. -/
def StopsAt : Token → List Char → Prop
  | .number _, rest => ∀ c ∈ rest.head?, ¬c.isDigit
  | .name _, rest | .keyword _, rest => ∀ c ∈ rest.head?, ¬Scanner.isNameFollow c
  | .symbol .less, rest => rest.head? ≠ some '>'
  | _, _ => True

end Token

/-- Tokens with a gap before each, and the gap at the end. -/
def written (pieces : List (List Char × Token)) (last : List Char) : List Char :=
  pieces.foldr (fun piece text => piece.1 ++ (piece.2.spelling ++ text)) last

/-! ## Layouts -/

/-- The rest of a text, after the part `before` it, holds these tokens. -/
inductive Layout : List Char → List Char → List Located → Prop
  | last {before gap : List Char} : LastGap gap → Layout before gap [⟨.endOfInput, positionAt (before ++ gap)⟩]
  | token {before gap lexeme rest : List Char} {t : Token} {tokens : List Located} : Gap gap → t.Spells lexeme →
      t.StopsAt rest → Layout (before ++ (gap ++ lexeme)) rest tokens →
      Layout before (gap ++ (lexeme ++ rest)) (⟨t, positionAt (before ++ gap)⟩ :: tokens)

theorem Layout.after {before gap rest : List Char} {tokens : List Located} (hgap : Gap gap)
    (h : Layout (before ++ gap) rest tokens) : Layout before (gap ++ rest) tokens := by
  generalize hfirst : before ++ gap = first at h
  cases h with
  | @last _ gap' hlast =>
    subst hfirst
    rw [List.append_assoc]
    exact .last (hlast.after hgap)
  | @token _ gap' lexeme rest t tokens hgap' hspells hstops h =>
    subst hfirst
    rw [← List.append_assoc gap, List.append_assoc before]
    refine .token (hgap.append hgap') hspells hstops ?_
    simpa using h

theorem Layout.of_token {before lexeme rest : List Char} {t : Token} {tokens : List Located} (hspells : t.Spells lexeme)
    (hstops : t.StopsAt rest) (h : Layout (before ++ lexeme) rest tokens) :
    Layout before (lexeme ++ rest) (⟨t, positionAt before⟩ :: tokens) := by
  have whole : Layout before ([] ++ (lexeme ++ rest)) (⟨t, positionAt (before ++ [])⟩ :: tokens) :=
    .token .nil hspells hstops (by simpa using h)
  simpa using whole

end KnightCode
