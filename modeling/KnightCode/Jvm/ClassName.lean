import KnightCode.Text.Letter

/-!
# Class names

A class is named in internal form: one or more parts with a slash between them, as in `Hello` or `output/Hello`.
-/

namespace KnightCode.ClassName

def isStart (c : Char) : Bool := isLetter c || c == '_' || c == '$'

def isFollow (c : Char) : Bool := isLetter c || isNumeral c || c == '_' || c == '$'

/-- The rest of a name; `start` says that a part has to start here. -/
def isValidFrom : (start : Bool) → List Char → Bool
  | start, [] => !start
  | true, c :: rest => isStart c && isValidFrom false rest
  | false, c :: rest => if c = '/' then isValidFrom true rest else isFollow c && isValidFrom false rest

def isValid (name : String) : Bool := isValidFrom true name.toList

end KnightCode.ClassName
