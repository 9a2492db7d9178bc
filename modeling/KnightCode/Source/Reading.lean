import KnightCode.Source.Program
import KnightCode.Source.Scanning

/-!
# Reading programs

A program is read one token at a time. The reader's state is what it has read so far: the blocks that are open, the
statements before the current one, and the unfinished parts of the current expression. Every token either leads to the
next state or is the token that the error is reported at.
-/

namespace KnightCode

namespace Reading

/-! ## Unfinished blocks -/

inductive Opening
  | thenOf (test : Test)
  | elseOf (test : Test) (thenBody : List Stmt)
  | whileOf (test : Test)
  deriving Repr

/-- An open block inside another one, and the statements before it there, in reverse. -/
structure Nest where
  opening : Opening
  before : List Stmt
  deriving Repr

structure Place where
  name : String
  declarations : Option (List Declaration)
  /-- The open blocks, the innermost first. -/
  nests : List Nest
  /-- The statements of the innermost block so far, in reverse. -/
  done : List Stmt
  deriving Repr

namespace Place

def add (p : Place) (s : Stmt) : Place := { p with done := s :: p.done }

def openBlock (p : Place) (opening : Opening) : Place :=
  { p with nests := ⟨opening, p.done⟩ :: p.nests, done := [] }

end Place

/-! ## Unfinished expressions -/

/-- The left operands that wait for their right ones, outside of parentheses or within one pair of them: of a
comparison, of a sum and of a product. -/
structure Level where
  compareLeft : Option (Comparison × Expr)
  sumLeft : Option (Arithmetic × Expr)
  productLeft : Option (Arithmetic × Expr)
  deriving Repr

namespace Level

def empty : Level := ⟨none, none, none⟩

def closeProduct (l : Level) (e : Expr) : Expr :=
  match l.productLeft with
  | some (op, left) => .arithmetic op left e
  | none => e

def closeSum (l : Level) (e : Expr) : Expr :=
  match l.sumLeft with
  | some (op, left) => .arithmetic op left (l.closeProduct e)
  | none => l.closeProduct e

def close (l : Level) (e : Expr) : Expr :=
  match l.compareLeft with
  | some (op, left) => .compare op left (l.closeSum e)
  | none => l.closeSum e

end Level

structure Pending where
  target : String
  level : Level
  /-- The levels outside of the open parentheses, the innermost first. -/
  outer : List Level
  deriving Repr

inductive Tested
  | ifThen
  | whileDo
  deriving DecidableEq, Repr

def Tested.closing : Tested → Keyword
  | .ifThen => .THEN
  | .whileDo => .DO

def Tested.opening (t : Tested) (test : Test) : Opening :=
  match t with
  | .ifThen => .thenOf test
  | .whileDo => .whileOf test

/-! ## States -/

/-- What was read, by what has to come next. -/
inductive State
  | start
  | programName
  | header (name : String)
  | declarations (name : String) (done : List Declaration)
  | declarationName (name : String) (done : List Declaration) (type : VarType)
  | statement (place : Place)
  | printArgument (place : Place)
  | readTarget (place : Place)
  | setTarget (place : Place)
  | setAssign (place : Place) (target : String)
  | setValue (place : Place) (target : String)
  | operand (place : Place) (pending : Pending)
  | operator (place : Place) (pending : Pending) (value : Expr)
  | testLeft (place : Place) (tested : Tested)
  | testOperator (place : Place) (tested : Tested) (left : Operand)
  | testRight (place : Place) (tested : Tested) (left : Operand) (op : Comparison)
  | testEnd (place : Place) (tested : Tested) (test : Test)
  | finished (program : Program)
  deriving Repr

abbrev Step := Except SyntaxFault State

def expectName (token : Token) (next : String → State) : Step :=
  match token with
  | .name name => .ok (next name)
  | got => .error (.expectedName got)

def expect (wanted got : Token) (next : State) : Step :=
  if got = wanted then .ok next else .error (.expected wanted got)

def comparison? : Token → Option Comparison
  | .symbol .greater => some .greater
  | .symbol .less => some .less
  | .symbol .equal => some .equal
  | .symbol .different => some .different
  | _ => none

def operand? : Token → Option Operand
  | .number value => some (.number value)
  | .name name => some (.name name)
  | _ => none

def stepStatement (p : Place) (token : Token) : Step :=
  -- Only the innermost block can be closed, and only by its own word.
  match p.nests, token with
  | [], .keyword .END => .ok (.finished ⟨p.name, p.declarations, p.done.reverse⟩)
  | ⟨.thenOf test, before⟩ :: outer, .keyword .ENDIF =>
    .ok (.statement { p with nests := outer, done := .ifThen test p.done.reverse :: before })
  | ⟨.thenOf test, before⟩ :: outer, .keyword .ELSE =>
    .ok (.statement { p with nests := ⟨.elseOf test p.done.reverse, before⟩ :: outer, done := [] })
  | ⟨.elseOf test thenBody, before⟩ :: outer, .keyword .ENDIF =>
    .ok (.statement { p with nests := outer, done := .ifElse test thenBody p.done.reverse :: before })
  | ⟨.whileOf test, before⟩ :: outer, .keyword .ENDWHILE =>
    .ok (.statement { p with nests := outer, done := .whileDo test p.done.reverse :: before })
  | _, .endOfInput => .error .unexpectedEnd
  | _, .keyword .SET => .ok (.setTarget p)
  | _, .keyword .PRINT => .ok (.printArgument p)
  | _, .keyword .READ => .ok (.readTarget p)
  | _, .keyword .IF => .ok (.testLeft p .ifThen)
  | _, .keyword .WHILE => .ok (.testLeft p .whileDo)
  | _, got => .error (.expectedStatement got)

def stepOperand (p : Place) (e : Pending) (token : Token) : Step :=
  match token with
  | .number value => .ok (.operator p e (.number value))
  | .name name => .ok (.operator p e (.name name))
  | .symbol .openParen => .ok (.operand p { e with level := .empty, outer := e.level :: e.outer })
  | got => .error (.expectedExpression got)

/-- A token that does not go on with the expression of this level: a closing parenthesis, or what follows the `SET`. -/
def stepEndLevel (p : Place) (e : Pending) (value : Expr) (token : Token) : Step :=
  match e.outer with
  | [] => stepStatement (p.add (.setExpr e.target (e.level.close value))) token
  | level :: outer =>
    expect (.symbol .closeParen) token (.operator p { e with level, outer } (.paren (e.level.close value)))

def stepOperator (p : Place) (e : Pending) (value : Expr) (token : Token) : Step :=
  let l := e.level
  let sum (op : Arithmetic) : Step :=
    .ok (.operand p { e with level := ⟨l.compareLeft, some (op, l.closeSum value), none⟩ })
  let product (op : Arithmetic) : Step :=
    .ok (.operand p { e with level := ⟨l.compareLeft, l.sumLeft, some (op, l.closeProduct value)⟩ })
  match token with
  | .symbol .plus => sum .add
  | .symbol .minus => sum .sub
  | .symbol .star => product .mul
  | .symbol .slash => product .div
  | got =>
    -- Only the first comparison of a level is taken: the second one ends it.
    match comparison? got, l.compareLeft with
    | some op, none => .ok (.operand p { e with level := ⟨some (op, l.closeSum value), none, none⟩ })
    | _, _ => stepEndLevel p e value got

def State.step (s : State) (token : Token) : Step :=
  match s with
  | .start => expect (.keyword .PROGRAM) token .programName
  | .programName => expectName token .header
  | .header name =>
    if token = .keyword .DECLARE then .ok (.declarations name [])
    else expect (.keyword .BEGIN) token (.statement ⟨name, none, [], []⟩)
  | .declarations name done =>
    match token with
    | .keyword .INTEGER => .ok (.declarationName name done .integer)
    | .keyword .STRING => .ok (.declarationName name done .text)
    | got => expect (.keyword .BEGIN) got (.statement ⟨name, some done.reverse, [], []⟩)
  | .declarationName name done type =>
    expectName token fun declared => .declarations name (⟨type, declared⟩ :: done)
  | .statement p => stepStatement p token
  | .printArgument p =>
    match token with
    | .text text => .ok (.statement (p.add (.printText text)))
    | .name name => .ok (.statement (p.add (.printName name)))
    | got => .error (.expectedPrintable got)
  | .readTarget p => expectName token fun name => .statement (p.add (.read name))
  | .setTarget p => expectName token fun target => .setAssign p target
  | .setAssign p target => expect (.symbol .assign) token (.setValue p target)
  | .setValue p target =>
    match token with
    | .text text => .ok (.statement (p.add (.setText target text)))
    | got => stepOperand p ⟨target, .empty, []⟩ got
  | .operand p e => stepOperand p e token
  | .operator p e value => stepOperator p e value token
  | .testLeft p t =>
    match operand? token with
    | some left => .ok (.testOperator p t left)
    | none => .error (.expectedOperand token)
  | .testOperator p t left =>
    match comparison? token with
    | some op => .ok (.testRight p t left op)
    | none => .error (.expectedComparison token)
  | .testRight p t left op =>
    match operand? token with
    | some right => .ok (.testEnd p t ⟨left, op, right⟩)
    | none => .error (.expectedOperand token)
  | .testEnd p t test => expect (.keyword t.closing) token (.statement (p.openBlock (t.opening test)))
  | .finished _ => .error (.afterEnd token)

inductive Outcome
  | program (program : Program)
  | fault (error : SyntaxError)
  | unfinished (state : State)
  deriving Repr

/-- Reads tokens until a program and the end of the input, or a fault, or no more tokens. -/
def run (s : State) : List Located → Outcome
  | [] => .unfinished s
  | t :: rest =>
    match s, t.token with
    | .finished program, .endOfInput => .program program
    | s, token =>
      match s.step token with
      | .ok s => run s rest
      | .error fault => .fault ⟨t.position, fault⟩

end Reading

open Reading in
/-- The program that tokens spell. A list that does not end in the end of the input is read as if its last token came
again and again; no tokens at all are read as the end of the input. Where the last token is an opening parenthesis that
is taken, such reading never ends: the error that is given then is one of this definition's own. -/
def Program.ofTokens (tokens : List Located) : Except SyntaxError Program :=
  let last := tokens.getLast?.getD ⟨.endOfInput, ⟨0, 0⟩⟩
  let again := List.replicate (tokens.length + 2) last
  let outcome :=
    match run .start tokens with
    | .unfinished s => run s again
    | outcome => outcome
  match outcome with
  | .program program => .ok program
  | .fault error => .error error
  | .unfinished _ => .error ⟨last.position, .expectedExpression last.token⟩

def Program.ofText (text : String) : Except SyntaxError Program := do
  Program.ofTokens (← scan text)

end KnightCode
