/-!
# Java types

The types of fields and methods, and the descriptors that spell them. A class name in a descriptor is any non-empty
text without a semicolon.
-/

namespace KnightCode

inductive JavaType
  | int
  | long
  | float
  | double
  | byte
  | char
  | short
  | boolean
  | void
  | object (className : String)
  | array (element : JavaType)
  deriving DecidableEq, Repr

namespace JavaType

def spell : JavaType → List Char
  | .int => ['I']
  | .long => ['J']
  | .float => ['F']
  | .double => ['D']
  | .byte => ['B']
  | .char => ['C']
  | .short => ['S']
  | .boolean => ['Z']
  | .void => ['V']
  | .object className => 'L' :: (className.toList ++ [';'])
  | .array element => '[' :: element.spell

def descriptor (t : JavaType) : String := String.ofList t.spell

theorem length_spell_pos (t : JavaType) : 0 < t.spell.length := by cases t <;> simp [spell]

def isIntLike : JavaType → Bool
  | .int | .byte | .char | .short | .boolean => true
  | _ => false

/-- How a class constant names a type: a class by its name, an array by its descriptor. -/
def classConstant? (t : JavaType) : Option String :=
  match t with
  | .object className => some className
  | .array _ => some t.descriptor
  | _ => none

/-! ## Reading descriptors -/

/-- Reads one type and gives back the characters after it. An array has no elements of type `void`. -/
def read? : List Char → Option (JavaType × List Char)
  | 'I' :: rest => some (.int, rest)
  | 'J' :: rest => some (.long, rest)
  | 'F' :: rest => some (.float, rest)
  | 'D' :: rest => some (.double, rest)
  | 'B' :: rest => some (.byte, rest)
  | 'C' :: rest => some (.char, rest)
  | 'S' :: rest => some (.short, rest)
  | 'Z' :: rest => some (.boolean, rest)
  | 'V' :: rest => some (.void, rest)
  | 'L' :: rest =>
    match rest.takeWhile (· != ';'), rest.dropWhile (· != ';') with
    | c :: name, _ :: rest => some (.object (String.ofList (c :: name)), rest)
    | _, _ => none
  | '[' :: rest =>
    match read? rest with
    | some (.void, _) | none => none
    | some (element, rest) => some (.array element, rest)
  | _ => none

/-- The characters from a byte offset of a text's UTF-8 form on; `none` inside a character or beyond the end. -/
def charsFrom? : Nat → List Char → Option (List Char)
  | 0, text => some text
  | _ + 1, [] => none
  | offset + 1, c :: rest => if c.utf8Size ≤ offset + 1 then charsFrom? (offset + 1 - c.utf8Size) rest else none

/-- Reads the type at a byte offset and gives the offset where the characters after it begin. -/
def readAt? (text : String) (offset : Nat) : Option (JavaType × Nat) := do
  let (t, rest) ← read? (← charsFrom? offset text.toList)
  return (t, text.utf8ByteSize - (String.ofList rest).utf8ByteSize)

def ofFieldDescriptor? (text : String) : Option JavaType :=
  match read? text.toList with
  | some (t, []) => if t = .void then none else some t
  | _ => none

/-- Reads types, none of them `void`, onto the reversed list `acc` until `n` characters are used up. The last type may
use more of them. -/
def readUntil? (n : Nat) (acc : List JavaType) (text : List Char) : Option (List JavaType) :=
  if n = 0 then some acc.reverse
  else
    match read? text with
    | some (t, rest) => if t = .void then none else readUntil? (n - t.spell.length) (t :: acc) rest
    | none => none
termination_by n
decreasing_by
  have := length_spell_pos t
  omega

/-- The parameters and the result of a method. The parameters are read up to the first closing parenthesis, the result
after it. -/
def ofMethodDescriptor? (text : String) : Option (List JavaType × JavaType) :=
  match text.toList with
  | '(' :: rest =>
    let inside := rest.takeWhile (· != ')')
    match rest.dropWhile (· != ')') with
    | _ :: after => do
      let params ← readUntil? inside.length [] rest
      match read? after with
      | some (result, []) => return (params, result)
      | _ => none
    | [] => none
  | _ => none

end JavaType

end KnightCode
