import KnightCode.Source.Token
import KnightCode.Text.Blank

/-!
# Scanning

A text is scanned one character at a time. The scanner remembers which token it is in and the characters of that token
so far. Blanks and comments, which run from `#` to the end of the line, stand between tokens.
-/

namespace KnightCode

/-- What the scanner is in the middle of; the characters seen so far are held in reverse. -/
inductive ScanMode
  | between
  | comment
  | text (start : Position) (seen : List Char)
  | escape (start : Position) (seen : List Char)
  | number (start : Position) (seen : List Char)
  | word (start : Position) (seen : List Char)
  | less (start : Position)
  | colon (start : Position)
  deriving DecidableEq, Repr

structure Scanner where
  mode : ScanMode
  /-- Where the next character stands. -/
  position : Position
  /-- The tokens before it, in reverse. -/
  tokens : List Located
  deriving DecidableEq, Repr

namespace Scanner

def start : Scanner := ⟨.between, ⟨1, 1⟩, []⟩

def isNameStart (c : Char) : Bool := c.isAlpha || c == '_'

def isNameFollow (c : Char) : Bool := c.isAlphanum || c == '_'

def valueOfDigits (digits : List Char) : Nat := digits.foldl (fun n d => 10 * n + (d.toNat - '0'.toNat)) 0

def wordToken (word : String) : Token :=
  match Keyword.ofSpelling? word with
  | some k => .keyword k
  | none => .name word

/-- The signs that no other sign starts with. -/
def symbol? : Char → Option Symbol
  | '(' => some .openParen
  | ')' => some .closeParen
  | '+' => some .plus
  | '-' => some .minus
  | '*' => some .star
  | '/' => some .slash
  | '>' => some .greater
  | '=' => some .equal
  | _ => none

def emit (s : Scanner) (start : Position) (token : Token) : Scanner :=
  { s with mode := .between, tokens := ⟨token, start⟩ :: s.tokens }

/-- Ends the token that the next character does not belong to. -/
def endToken (s : Scanner) : Except SyntaxError Scanner :=
  match s.mode with
  | .between | .comment => .ok s
  | .number start seen =>
    let digits := seen.reverse
    let value := valueOfDigits digits
    if value ≤ 2147483647 then .ok (s.emit start (.number (Int32.ofNat value)))
    else .error ⟨s.position, .numberTooLarge (String.ofList digits)⟩
  | .word start seen => .ok (s.emit start (wordToken (String.ofList seen.reverse)))
  | .less start => .ok (s.emit start (.symbol .less))
  | .colon _ => .error ⟨s.position, .colonWithoutEquals⟩
  | .text .. => .error ⟨s.position, .unterminatedText⟩
  | .escape .. => .error ⟨s.position, .invalidEscape⟩

def pass (s : Scanner) (c : Char) : Scanner := { s with position := s.position.after c }

def enter (s : Scanner) (c : Char) (mode : ScanMode) : Scanner := { s.pass c with mode }

def startToken (s : Scanner) (c : Char) : Except SyntaxError Scanner :=
  if isBlank c then .ok (s.enter c .between)
  else if c = '#' then .ok (s.enter c .comment)
  else if c = '<' then .ok (s.enter c (.less s.position))
  else if c = ':' then .ok (s.enter c (.colon s.position))
  else if c = '"' then .ok (s.enter c (.text s.position []))
  else if c.isDigit then .ok (s.enter c (.number s.position [c]))
  else if isNameStart c then .ok (s.enter c (.word s.position [c]))
  else
    match symbol? c with
    | some sign => .ok ((s.emit s.position (.symbol sign)).pass c)
    | none => .error ⟨s.position, .unexpectedCharacter c⟩

def step (s : Scanner) (c : Char) : Except SyntaxError Scanner :=
  match s.mode with
  | .between => s.startToken c
  | .comment => .ok (s.enter c (if c = '\n' then .between else .comment))
  | .text start seen =>
    if c = '"' then .ok ((s.emit start (.text (String.ofList seen.reverse))).pass c)
    else if c = '\\' then .ok (s.enter c (.escape start seen))
    else .ok (s.enter c (.text start (c :: seen)))
  | .escape start seen =>
    if c = '"' || c = '\\' then .ok (s.enter c (.text start (c :: seen)))
    -- The fault stands behind the character after the backslash.
    else .error ⟨s.position.after c, .invalidEscape⟩
  | .number start seen =>
    if c.isDigit then .ok (s.enter c (.number start (c :: seen)))
    else do (← s.endToken).startToken c
  | .word start seen =>
    if isNameFollow c then .ok (s.enter c (.word start (c :: seen)))
    else do (← s.endToken).startToken c
  | .less start =>
    if c = '>' then .ok ((s.emit start (.symbol .different)).pass c)
    else do (← s.endToken).startToken c
  | .colon start =>
    if c = '=' then .ok ((s.emit start (.symbol .assign)).pass c)
    else s.endToken

def run (s : Scanner) : List Char → Except SyntaxError Scanner
  | [] => s.endToken
  | c :: rest =>
    match s.step c with
    | .ok s => s.run rest
    | .error e => .error e

end Scanner

def scan (text : String) : Except SyntaxError (List Located) := do
  let s ← Scanner.start.run text.toList
  return (⟨.endOfInput, s.position⟩ :: s.tokens).reverse

end KnightCode
