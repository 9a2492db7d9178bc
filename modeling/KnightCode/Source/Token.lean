/-!
# Tokens

The words and signs of a program text, where they stand, and what can be wrong with a text.
-/

namespace KnightCode

/-- The words with a meaning of their own, named as they are written. -/
inductive Keyword
  | PROGRAM
  | DECLARE
  | INTEGER
  | STRING
  | BEGIN
  | END
  | SET
  | PRINT
  | READ
  | IF
  | THEN
  | ELSE
  | ENDIF
  | WHILE
  | DO
  | ENDWHILE
  deriving DecidableEq, Repr

namespace Keyword

def spelling : Keyword → String
  | .PROGRAM => "PROGRAM"
  | .DECLARE => "DECLARE"
  | .INTEGER => "INTEGER"
  | .STRING => "STRING"
  | .BEGIN => "BEGIN"
  | .END => "END"
  | .SET => "SET"
  | .PRINT => "PRINT"
  | .READ => "READ"
  | .IF => "IF"
  | .THEN => "THEN"
  | .ELSE => "ELSE"
  | .ENDIF => "ENDIF"
  | .WHILE => "WHILE"
  | .DO => "DO"
  | .ENDWHILE => "ENDWHILE"

def all : List Keyword :=
  [.PROGRAM, .DECLARE, .INTEGER, .STRING, .BEGIN, .END, .SET, .PRINT, .READ, .IF, .THEN, .ELSE, .ENDIF, .WHILE, .DO,
    .ENDWHILE]

def ofSpelling? (word : String) : Option Keyword := all.find? (·.spelling = word)

theorem mem_all (k : Keyword) : k ∈ all := by cases k <;> decide

end Keyword

inductive Symbol
  | assign
  | plus
  | minus
  | star
  | slash
  | greater
  | less
  | equal
  | different
  | openParen
  | closeParen
  deriving DecidableEq, Repr

namespace Symbol

def spelling : Symbol → String
  | .assign => ":="
  | .plus => "+"
  | .minus => "-"
  | .star => "*"
  | .slash => "/"
  | .greater => ">"
  | .less => "<"
  | .equal => "="
  | .different => "<>"
  | .openParen => "("
  | .closeParen => ")"

def all : List Symbol :=
  [.assign, .plus, .minus, .star, .slash, .greater, .less, .equal, .different, .openParen, .closeParen]

def ofSpelling? (sign : String) : Option Symbol := all.find? (·.spelling = sign)

end Symbol

inductive Token
  | number (value : Int32)
  | text (value : String)
  | name (value : String)
  | keyword (word : Keyword)
  | symbol (sign : Symbol)
  | endOfInput
  deriving DecidableEq, Repr

def Token.describe : Token → String
  | .number value => s!"number {value.toInt}"
  | .text value => s!"string \"{value}\""
  | .name value => s!"identifier '{value}'"
  | .keyword word => s!"'{word.spelling}'"
  | .symbol sign => s!"'{sign.spelling}'"
  | .endOfInput => "end of input"

/-- Lines and columns count from one. -/
structure Position where
  line : Nat
  column : Nat
  deriving DecidableEq, Repr

def Position.after (p : Position) (c : Char) : Position :=
  if c = '\n' then ⟨p.line + 1, 1⟩ else ⟨p.line, p.column + 1⟩

structure Located where
  token : Token
  position : Position
  deriving DecidableEq, Repr

/-! ## What can be wrong -/

inductive SyntaxFault
  | unexpectedCharacter (c : Char)
  | colonWithoutEquals
  | unterminatedText
  | invalidEscape
  | numberTooLarge (digits : String)
  | expected (wanted got : Token)
  | expectedName (got : Token)
  | afterEnd (got : Token)
  | unexpectedEnd
  | expectedStatement (got : Token)
  | expectedPrintable (got : Token)
  | expectedOperand (got : Token)
  | expectedComparison (got : Token)
  | expectedExpression (got : Token)
  deriving DecidableEq, Repr

def SyntaxFault.message : SyntaxFault → String
  | .unexpectedCharacter c => s!"unexpected character: '{c}'"
  | .colonWithoutEquals => "expected '=' after ':'"
  | .unterminatedText => "unterminated string literal"
  | .invalidEscape => "invalid escape sequence"
  | .numberTooLarge digits => s!"integer literal {digits} does not fit in 32 bits"
  | .expected wanted got => s!"expected {wanted.describe}, got {got.describe}"
  | .expectedName got => s!"expected identifier, got {got.describe}"
  | .afterEnd got => s!"unexpected {got.describe} after END"
  | .unexpectedEnd => "unexpected end of input"
  | .expectedStatement got => s!"expected statement, got {got.describe}"
  | .expectedPrintable got => s!"PRINT expects a string or identifier, got {got.describe}"
  | .expectedOperand got => s!"expected number or identifier, got {got.describe}"
  | .expectedComparison got => s!"expected comparison, got {got.describe}"
  | .expectedExpression got => s!"expected expression, got {got.describe}"

structure SyntaxError where
  position : Position
  fault : SyntaxFault
  deriving DecidableEq, Repr

end KnightCode
