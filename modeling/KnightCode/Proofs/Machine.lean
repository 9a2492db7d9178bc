import KnightCode.Compile.Artifact
import KnightCode.Proofs.Meaning

/-!
# The machine

How a Java machine executes the code array of a method: the instruction at the program counter is decoded from the
bytes, and what it names is looked up in the constant pool of the class. The machine has the part of the Java library
that compiled programs use; texts are handled as `JavaText` says. Whatever has no place in such a program (an operand of
another type, an index that leads nowhere, a jump out of the code) ends the run with `Outcome.wrong`.
-/

namespace KnightCode

inductive Datum
  | int (value : Int32)
  | text (value : String)
  | printStream
  | scanner
  /-- The array of the arguments of `main`. -/
  | arguments
  deriving DecidableEq, Repr

def Datum.kind : Datum → ValueKind
  | .int _ => .int
  | _ => .reference

def Arithmetic.compute : Arithmetic → Int32 → Int32 → Except Outcome Int32
  | .add, a, b => .ok (a + b)
  | .sub, a, b => .ok (a - b)
  | .mul, a, b => .ok (a * b)
  | .div, a, b => if b = 0 then .error .divisionByZero else .ok (a / b)

def Condition.holds : Condition → Int32 → Int32 → Bool
  | .eq, a, b => a = b
  | .ne, a, b => a ≠ b
  | .lt, a, b => a < b
  | .ge, a, b => b ≤ a
  | .gt, a, b => b < a
  | .le, a, b => a ≤ b

/-- A method at work: its operand stack, the top first, its local variables, and the lines that can still be read. -/
structure Activation where
  stack : List Datum
  locals : UInt16 → Option Datum
  input : List String

/-- What a part of an instruction leaves: the method at work and what was printed. -/
abbrev Executed := Except Outcome (Activation × List String)

namespace Activation

def start (input : List String) : Activation := ⟨[], fun slot => if slot = 0 then some .arguments else none, input⟩

def push (a : Activation) (d : Datum) : Activation := { a with stack := d :: a.stack }

def load (a : Activation) (kind : ValueKind) (slot : UInt16) : Executed :=
  match a.locals slot with
  | some d => if d.kind = kind then .ok (a.push d, []) else .error .wrong
  | none => .error .wrong

def store (a : Activation) (kind : ValueKind) (slot : UInt16) : Executed :=
  match a.stack with
  | d :: stack =>
    if d.kind = kind then
      .ok ({ a with stack, locals := fun s => if s = slot then some d else a.locals s }, [])
    else .error .wrong
  | [] => .error .wrong

def arithmetic (a : Activation) (op : Arithmetic) : Executed :=
  match a.stack with
  | .int y :: .int x :: stack =>
    match op.compute x y with
    | .ok n => .ok ({ a with stack := .int n :: stack }, [])
    | .error outcome => .error outcome
  | _ => .error .wrong

def dup (a : Activation) : Executed :=
  match a.stack with
  | d :: _ => .ok (a.push d, [])
  | [] => .error .wrong

def compare (a : Activation) (condition : Condition) : Except Outcome (Bool × Activation) :=
  match a.stack with
  | .int y :: .int x :: stack => .ok (condition.holds x y, { a with stack })
  | _ => .error .wrong

def push? (a : Activation) : Option Datum → Executed
  | some d => .ok (a.push d, [])
  | none => .error .wrong

/-! ## The library -/

def printlnInt (java : JavaText) (a : Activation) : Executed :=
  match a.stack with
  | .int n :: .printStream :: stack => .ok ({ a with stack }, [java.decimal n])
  | _ => .error .wrong

def printlnText (a : Activation) : Executed :=
  match a.stack with
  | .text s :: .printStream :: stack => .ok ({ a with stack }, [s])
  | _ => .error .wrong

def nextLine (a : Activation) : Executed :=
  match a.stack, a.input with
  | .scanner :: stack, line :: input => .ok ({ a with stack := .text line :: stack, input }, [])
  | .scanner :: _, [] => .error .badInput
  | _, _ => .error .wrong

def trim (java : JavaText) (a : Activation) : Executed :=
  match a.stack with
  | .text s :: stack => .ok ({ a with stack := .text (java.trim s) :: stack }, [])
  | _ => .error .wrong

def parseInt (java : JavaText) (a : Activation) : Executed :=
  match a.stack with
  | .text s :: stack =>
    match java.parse s with
    | some n => .ok ({ a with stack := .int n :: stack }, [])
    | none => .error .badInput
  | _ => .error .wrong

def invokeVirtual (java : JavaText) (a : Activation) (m : MemberRef) : Executed :=
  if m = ⟨"java/io/PrintStream", "println", "(I)V"⟩ then a.printlnInt java
  else if m = ⟨"java/io/PrintStream", "println", "(Ljava/lang/String;)V"⟩ then a.printlnText
  else if m = ⟨"java/util/Scanner", "nextLine", "()Ljava/lang/String;"⟩ then a.nextLine
  else if m = ⟨"java/lang/String", "trim", "()Ljava/lang/String;"⟩ then a.trim java
  else .error .wrong

def invokeStatic (java : JavaText) (a : Activation) (m : MemberRef) : Executed :=
  if m = ⟨"java/lang/Integer", "parseInt", "(Ljava/lang/String;)I"⟩ then a.parseInt java else .error .wrong

end Activation

/-! ## Constants -/

namespace ConstantPool

def datum? (pool : ConstantPool) (index : UInt16) : Option Datum :=
  match pool.get? index with
  | some (.integer n) => some (.int n)
  | some (.string text) => (pool.text? text).map .text
  | _ => none

def nameAndType? (pool : ConstantPool) (index : UInt16) : Option (String × String) :=
  match pool.get? index with
  | some (.nameAndType name descriptor) => do return (← pool.text? name, ← pool.text? descriptor)
  | _ => none

def member? (pool : ConstantPool) (owner member : UInt16) : Option MemberRef := do
  let (name, descriptor) ← pool.nameAndType? member
  return ⟨← pool.className? owner, name, descriptor⟩

def field? (pool : ConstantPool) (index : UInt16) : Option MemberRef :=
  match pool.get? index with
  | some (.fieldRef owner member) => pool.member? owner member
  | _ => none

def method? (pool : ConstantPool) (index : UInt16) : Option MemberRef :=
  match pool.get? index with
  | some (.methodRef owner member) => pool.member? owner member
  | _ => none

end ConstantPool

namespace ClassFile

def declares (c : ClassFile) (m : MemberRef) : Bool :=
  c.pool.className? c.thisClass = some m.owner &&
    c.fields.any fun f => c.pool.text? f.name = some m.name && c.pool.text? f.descriptor = some m.descriptor

/-- What a static field holds. The initializer of the class has filled the field for the console reader. -/
def static? (c : ClassFile) (m : MemberRef) : Option Datum :=
  if m = ⟨"java/lang/System", "out", "Ljava/io/PrintStream;"⟩ then some .printStream
  else if m.descriptor = "Ljava/util/Scanner;" ∧ c.declares m then some .scanner
  else none

def codeOf? (c : ClassFile) (m : Member) : Option Code :=
  (m.attributes.find? fun a => c.pool.text? a.name = some "Code").bind fun a => (Code.ofAttribute a).toOption

def code? (c : ClassFile) (name : String) : Option Code := (c.method? name).bind c.codeOf?

end ClassFile

/-! ## Execution -/

structure MachineState where
  pc : Nat
  act : Activation

namespace MachineState

def start (input : List String) : MachineState := ⟨0, .start input⟩

def jump (s : MachineState) (offset : Int16) : Progress MachineState :=
  if 0 ≤ (s.pc : Int) + offset.toInt then .go { s with pc := ((s.pc : Int) + offset.toInt).toNat } []
  else .stop .wrong

def advance (s : MachineState) (size : Nat) : Executed → Progress MachineState
  | .ok (act, printed) => .go ⟨s.pc + size, act⟩ printed
  | .error outcome => .stop outcome

end MachineState

/-- What an instruction that is no jump does. -/
def Instruction.operate (java : JavaText) (c : ClassFile) (a : Activation) : Instruction → Executed
  | .iconst n => .ok (a.push (.int (Int32.ofInt (n.val - 1))), [])
  | .bipush value => .ok (a.push (.int value.toInt32), [])
  | .sipush value => .ok (a.push (.int value.toInt32), [])
  | .ldc index => a.push? (c.pool.datum? index.toUInt16)
  | .ldcWide index => a.push? (c.pool.datum? index)
  | .load kind slot => a.load kind slot.index
  | .store kind slot => a.store kind slot.index
  | .arithmetic op => a.arithmetic op
  | .dup => a.dup
  | .getStatic index => a.push? ((c.pool.field? index).bind c.static?)
  | .invokeVirtual index => (c.pool.method? index).elim (.error .wrong) (a.invokeVirtual java)
  | .invokeStatic index => (c.pool.method? index).elim (.error .wrong) (a.invokeStatic java)
  | _ => .error .wrong

def Instruction.execute (java : JavaText) (c : ClassFile) (s : MachineState) : Instruction → Progress MachineState
  | .returnVoid => .stop .finished
  | .goto offset => s.jump offset
  | .branch condition offset =>
    match s.act.compare condition with
    | .ok (true, act) => { s with act }.jump offset
    | .ok (false, act) => .go ⟨s.pc + (Instruction.branch condition offset).size, act⟩ []
    | .error outcome => .stop outcome
  | i => s.advance i.size (i.operate java c s.act)

/-- One step of a method of the class with this code array. -/
def ClassFile.step (c : ClassFile) (java : JavaText) (code : Bytes) : Stepping MachineState := fun s =>
  match Instruction.read (code.drop s.pc) with
  | some (i, _) => i.execute java c s
  | none => .stop .wrong

end KnightCode
