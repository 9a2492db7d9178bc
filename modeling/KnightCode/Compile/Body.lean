import KnightCode.Compile.Fault
import KnightCode.Jvm.Frame
import KnightCode.Jvm.Instruction
import KnightCode.Jvm.JavaType

/-!
# Method bodies

A body grows call by call. Branches go to labels, which are bound to a place in the code before or after they are used;
their offsets are filled in when the body is finished. While it grows, the body knows the types on the operand stack
and in the local variables, so the depth of the stack and the frames at the branch targets come out exact. A call that
fails leaves what it had done up to then.
-/

namespace KnightCode

/-- An instruction of an unfinished body. A branch names its label. -/
inductive Item
  | plain (instruction : Instruction)
  | branch (condition : Condition) (label : Nat)
  | jump (label : Nat)
  deriving DecidableEq, Repr

namespace Item

def label? : Item → Option Nat
  | .plain _ => none
  | .branch _ label | .jump label => some label

def withOffset (offset : Int16) : Item → Instruction
  | .plain instruction => instruction
  | .branch condition _ => .branch condition offset
  | .jump _ => .goto offset

/-- The instruction, with the offset of a branch left open. -/
def instruction (i : Item) : Instruction := i.withOffset 0

end Item

structure Label where
  /-- The number of instructions before the place it is bound to. -/
  position : Option Nat
  /-- Some branch goes here. -/
  referenced : Bool
  /-- The types of the local variables, as far as all ways to the label agree. -/
  locals : Array VerificationType
  /-- The types on the operand stack, on which all ways to the label agree. -/
  stack : Option (Array VerificationType)
  deriving Repr

/-- What two ways to a label agree on. -/
def mergeLocals (a b : Array VerificationType) : Array VerificationType :=
  Array.zipWith (fun s t => if s = t then s else .top) a b

def Label.join (l : Label) (stack locals : Array VerificationType) : Label :=
  { l with stack := some stack, locals := mergeLocals l.locals locals }

structure Body where
  pool : ConstantPool
  thisClass : UInt16
  items : Array Item
  /-- The number of bytes so far. It has no bound here; bodies of 2 ^ 32 bytes and more, for which a count in 32 bits
  would start again at zero, are left out. -/
  size : Nat
  labels : Array Label
  /-- The operand stack, its top last. -/
  stack : Array VerificationType
  maxStack : UInt16
  locals : Array VerificationType
  maxLocals : UInt16
  /-- Control can reach the end of the code so far. -/
  reachable : Bool
  /-- The local variables at the start of the method. -/
  entryLocals : Array VerificationType
  /-- A table of frames is wanted. -/
  wantsFrames : Bool

structure MemberRef where
  owner : String
  name : String
  descriptor : String
  deriving DecidableEq, Repr

abbrev Build := EStateM Fault Body

namespace Body

def start (pool : ConstantPool) (thisClass : UInt16) (entryLocals : List VerificationType) (wantsFrames : Bool) :
    Body where
  pool
  thisClass
  items := #[]
  size := 0
  labels := #[]
  stack := #[]
  maxStack := 0
  locals := entryLocals.toArray
  maxLocals := entryLocals.length.toUInt16
  reachable := true
  entryLocals := entryLocals.toArray
  wantsFrames

/-! ## Parts of calls -/

def fail {α : Type} (fault : CodeFault) : Build α := throw (.code fault)

def request {α : Type} (r : Interning α) : Build α := fun b =>
  let pool := b.pool
  let b := { b with pool := .empty }
  match r pool with
  | .ok a pool => .ok a { b with pool }
  | .error e pool => .error (.code (.pool e)) { b with pool }

def append (item : Item) : Build Unit :=
  modify fun b => { b with items := b.items.push item, size := b.size + item.instruction.size }

def emit (instruction : Instruction) : Build Unit := append (.plain instruction)

def push (type : VerificationType) : Build Unit :=
  modify fun b =>
    let depth := b.stack.size + 1
    { b with stack := b.stack.push type, maxStack := max b.maxStack depth.toUInt16 }

def pop : Build VerificationType := fun b =>
  match b.stack.back? with
  | some type => .ok type { b with stack := b.stack.pop }
  | none => .error (.code .stackUnderflow) b

def popMany : Nat → Build Unit
  | 0 => pure ()
  | n + 1 => do
    let _ ← pop
    popMany n

def touch (slot : UInt16) : Build Unit := modify fun b => { b with maxLocals := max b.maxLocals (slot + 1) }

def setLocal (slot : UInt16) (type : VerificationType) : Build Unit :=
  modify fun b =>
    let missing := Array.replicate (slot.toNat + 1 - b.locals.size) VerificationType.top
    { b with locals := (b.locals ++ missing).setIfInBounds slot.toNat type }

def classType (name : String) : Build VerificationType := do
  return .object (← request (ConstantPool.classRef name))

/-- The type of a value of a Java type; a class constant is added for a class or an array. -/
def typeOf (type : JavaType) : Build VerificationType :=
  if type.isIntLike then pure .integer
  else
    match type.classConstant? with
    | some name => classType name
    | none => fail (.unsupportedType type.descriptor)

def stringClass : String := "java/lang/String"

def emitLdc (index : UInt16) : Build Unit :=
  emit (if index ≤ 255 then .ldc index.toUInt8 else .ldcWide index)

def modifyLabel (label : Nat) (f : Label → Label) : Build Unit :=
  modify fun b => { b with labels := b.labels.modify label f }

def recordEdge (label : Nat) : Build Unit := do
  let b ← get
  match b.labels[label]? with
  | none => fail (.unknownLabel label)
  | some l =>
    match l.stack with
    | some expected =>
      if expected ≠ b.stack then fail (.inconsistentStack label expected.size b.stack.size)
    | none => pure ()
  let stack := b.stack
  let locals := b.locals
  modifyLabel label (·.join stack locals)

def popArguments (descriptor : String) : Build JavaType :=
  match JavaType.ofMethodDescriptor? descriptor with
  | some (params, result) => do
    popMany params.length
    return result
  | none => fail (.invalidMethodDescriptor descriptor)

def pushResult (type : JavaType) : Build Unit := do
  if type ≠ .void then push (← typeOf type)

def methodIndex (m : MemberRef) : Build UInt16 := request (ConstantPool.methodRef m.owner m.name m.descriptor)

def fieldIndex (m : MemberRef) : Build UInt16 := request (ConstantPool.fieldRef m.owner m.name m.descriptor)

def fieldType (descriptor : String) : Build JavaType :=
  match JavaType.ofFieldDescriptor? descriptor with
  | some type => pure type
  | none => fail (.invalidFieldDescriptor descriptor)

/-- All copies of a new object become an object whose constructor has run. -/
def construct (receiver initialized : VerificationType) : Build Unit :=
  let replace (types : Array VerificationType) := types.map fun t => if t = receiver then initialized else t
  modify fun b => { b with stack := replace b.stack, locals := replace b.locals }

/-! ## Calls -/

def pushInt (value : Int32) : Build Unit := do
  let n := value.toInt
  if h : -1 ≤ n ∧ n ≤ 5 then emit (.iconst ⟨(n + 1).toNat, by omega⟩)
  else if -128 ≤ n ∧ n ≤ 127 then emit (.bipush (Int8.ofInt n))
  else if -32768 ≤ n ∧ n ≤ 32767 then emit (.sipush (Int16.ofInt n))
  else emitLdc (← request (ConstantPool.integer value))
  push .integer

def pushText (text : String) : Build Unit := do
  emitLdc (← request (ConstantPool.string text))
  push (← classType stringClass)

/-- The type that a loaded reference has: that of the local variable, or else a string. -/
def loadedType (slot : UInt16) : ValueKind → Build VerificationType
  | .int => pure .integer
  | .reference => do
    let type := (← get).locals[slot.toNat]?.getD .top
    if type.isReference then return type else classType stringClass

def load (slot : UInt16) (kind : ValueKind) : Build Unit := do
  emit (.load kind (.ofIndex slot))
  push (← loadedType slot kind)
  touch slot

def store (slot : UInt16) (kind : ValueKind) : Build Unit := do
  let type ← pop
  emit (.store kind (.ofIndex slot))
  setLocal slot type
  touch slot

def arithmetic (op : Arithmetic) : Build Unit := do
  popMany 2
  emit (.arithmetic op)
  push .integer

/-- A new label, whose number is the number of labels before it. It starts with the present local variables. -/
def newLabel : Build Unit :=
  modify fun b => { b with labels := b.labels.push ⟨none, false, b.locals, none⟩ }

def branch (condition : Condition) (label : Nat) : Build Unit := do
  popMany 2
  recordEdge label
  modifyLabel label ({ · with referenced := true })
  append (.branch condition label)

def jump (label : Nat) : Build Unit := do
  recordEdge label
  modifyLabel label ({ · with referenced := true })
  append (.jump label)
  modify fun b => { b with reachable := false, stack := #[] }

/-- Binds a label to the end of the code so far. If control cannot reach it from there, the types are those of the ways
to the label. -/
def bind (label : Nat) : Build Unit := do
  match (← get).labels[label]? with
  | none => fail (.unknownLabel label)
  | some l => if l.position.isSome then fail (.labelBoundTwice label)
  -- The code before is one more way to the label. The body keeps its own types all the same.
  if (← get).reachable then recordEdge label
  modify fun b =>
    let position := b.items.size
    { b with labels := b.labels.modify label ({ · with position := some position }) }
  modify fun b =>
    if b.reachable then b
    else
      -- Control comes by branches only, so their types are all that is known here.
      match b.labels[label]? with
      | some l => { b with stack := l.stack.getD #[], locals := l.locals, reachable := true }
      | none => b

def getStatic (m : MemberRef) : Build Unit := do
  -- The class of the value gets its constant before the field does.
  let type ← typeOf (← fieldType m.descriptor)
  emit (.getStatic (← fieldIndex m))
  push type

def putStatic (m : MemberRef) : Build Unit := do
  let _ ← fieldType m.descriptor
  let index ← fieldIndex m
  let _ ← pop
  emit (.putStatic index)

def invokeVirtual (m : MemberRef) : Build Unit := do
  let result ← popArguments m.descriptor
  let _ ← pop
  emit (.invokeVirtual (← methodIndex m))
  pushResult result

def invokeStatic (m : MemberRef) : Build Unit := do
  let result ← popArguments m.descriptor
  emit (.invokeStatic (← methodIndex m))
  pushResult result

def invokeSpecial (m : MemberRef) : Build Unit := do
  let result ← popArguments m.descriptor
  let receiver ← pop
  emit (.invokeSpecial (← methodIndex m))
  if m.name = "<init>" then
    match receiver with
    | .uninitializedThis => construct receiver (.object (← get).thisClass)
    | .uninitialized _ => construct receiver (← classType m.owner)
    | _ => pure ()
  pushResult result

def new (className : String) : Build Unit := do
  let size := (← get).size
  if size > 65535 then fail .bodyTooLargeForNew
  emit (.new (← request (ConstantPool.classRef className)))
  -- Until its constructor has run, the object goes by the address of this instruction.
  push (.uninitialized size.toUInt16)

def dup : Build Unit := do
  match (← get).stack.back? with
  | some type =>
    emit .dup
    push type
  | none => fail .dupOnEmptyStack

end Body

inductive Call
  | pushInt (value : Int32)
  | pushText (text : String)
  | load (slot : UInt16) (kind : ValueKind)
  | store (slot : UInt16) (kind : ValueKind)
  | arithmetic (op : Arithmetic)
  | newLabel
  | branch (condition : Condition) (label : Nat)
  | jump (label : Nat)
  | bind (label : Nat)
  | getStatic (m : MemberRef)
  | putStatic (m : MemberRef)
  | invokeVirtual (m : MemberRef)
  | invokeStatic (m : MemberRef)
  | invokeSpecial (m : MemberRef)
  | new (className : String)
  | dup
  deriving DecidableEq, Repr

def Call.perform : Call → Build Unit
  | .pushInt value => Body.pushInt value
  | .pushText text => Body.pushText text
  | .load slot kind => Body.load slot kind
  | .store slot kind => Body.store slot kind
  | .arithmetic op => Body.arithmetic op
  | .newLabel => Body.newLabel
  | .branch condition label => Body.branch condition label
  | .jump label => Body.jump label
  | .bind label => Body.bind label
  | .getStatic m => Body.getStatic m
  | .putStatic m => Body.putStatic m
  | .invokeVirtual m => Body.invokeVirtual m
  | .invokeStatic m => Body.invokeStatic m
  | .invokeSpecial m => Body.invokeSpecial m
  | .new className => Body.new className
  | .dup => Body.dup

def Call.performAll (calls : List Call) : Build Unit := calls.forM Call.perform

theorem Call.performAll_append (first second : List Call) :
    Call.performAll (first ++ second) = (do Call.performAll first; Call.performAll second) :=
  List.forM_append

/-! ## Finished bodies -/

structure MethodCode where
  instructions : List Instruction
  maxStack : UInt16
  maxLocals : UInt16
  frames : Option (List FrameEntry)
  deriving DecidableEq, Repr

namespace Body

/-- The instructions, with a return at the end if control can reach it. -/
def finalItems (b : Body) : List Item :=
  if b.reachable then b.items.toList ++ [.plain .returnVoid] else b.items.toList

/-- The first label that some branch goes to and that is not bound. -/
def unresolved? (b : Body) : Option Nat := b.labels.findIdx? fun l => l.referenced && l.position.isNone

def resolve (b : Body) (addressOf : Nat → Nat) (item : Item) (address : Nat) : Except Fault Instruction :=
  match item.label? with
  | none => .ok item.instruction
  | some label =>
    match b.labels[label]?.bind (·.position) with
    | none => .error (.unresolvedLabel label)
    | some position =>
      let offset : Int := (addressOf position : Int) - address
      if -32768 ≤ offset ∧ offset ≤ 32767 then .ok (item.withOffset (Int16.ofInt offset))
      else .error (.code (.branchTooFar offset))

def targetFrames (b : Body) (addressOf : Nat → Nat) : List Frame :=
  b.labels.toList.filterMap fun l =>
    if l.referenced then
      l.position.map fun p => ⟨addressOf p, l.locals.toList, (l.stack.getD #[]).toList⟩
    else none

def finish (b : Body) : Except Fault MethodCode := do
  let items := b.finalItems
  let size := if b.reachable then b.size + 1 else b.size
  if let some label := b.unresolved? then throw (.unresolvedLabel label)
  if size > 65535 then throw (.code (.bodyTooLarge size))
  let places := addresses (items.map Item.instruction)
  let byIndex := places.toArray
  let addressOf (position : Nat) : Nat := byIndex[position]?.getD size
  let instructions ← (items.zip places).mapM fun (item, address) => b.resolve addressOf item address
  let frames := if b.wantsFrames then Frame.table? b.entryLocals.toList (b.targetFrames addressOf) else none
  return ⟨instructions, b.maxStack, b.maxLocals, frames⟩

end Body

end KnightCode
