import KnightCode.Proofs.FrameTable
import KnightCode.Proofs.Machine

/-!
# The verifier

How a virtual machine checks the types of a method before the method runs. The code is walked from the first instruction
to the last one, with the types of the local variables and of the operand stack. Where the table has a frame, the types
must suit the frame, and the walk goes on with it. So each instruction is checked once, and the types that it finds are
those of every way to it. A class of an object must be the class that is wanted; that it might be a subclass is not
considered. Constructors and stores to fields are not considered either: a method that has them is refused.
-/

namespace KnightCode

/-! ## Types -/

/-- A type that the verifier knows. The class of an object has a name here, not an index. -/
inductive SlotType
  | top
  | integer
  | null
  | uninitializedThis
  | object (className : String)
  | uninitialized (address : UInt16)
  deriving DecidableEq, Repr

def ConstantPool.slotType? (pool : ConstantPool) : VerificationType → Option SlotType
  | .top => some .top
  | .integer => some .integer
  | .null => some .null
  | .uninitializedThis => some .uninitializedThis
  | .object index => (pool.className? index).map .object
  | .uninitialized address => some (.uninitialized address)

/-- The type of the values of a Java type. Those that take two words are not used. -/
def SlotType.ofJava? (type : JavaType) : Option SlotType :=
  if type.isIntLike then some .integer else type.classConstant?.map .object

def ConstantPool.loadable? (pool : ConstantPool) (index : UInt16) : Option SlotType :=
  match pool.get? index with
  | some (.integer _) => some .integer
  | some (.string _) => some (.object "java/lang/String")
  | _ => none

structure TypeState where
  locals : List SlotType
  /-- The top of the operand stack is first. -/
  stack : List SlotType
  deriving DecidableEq, Repr

namespace TypeState

def push (s : TypeState) (t : SlotType) : TypeState := { s with stack := t :: s.stack }

/-- Takes these types off the operand stack, the first of them from the top. -/
def pop? (s : TypeState) (types : List SlotType) : Option TypeState :=
  if types.isPrefixOf s.stack then some { s with stack := s.stack.drop types.length } else none

def load? (s : TypeState) (kind : ValueKind) (slot : Nat) : Option TypeState :=
  match kind, s.locals[slot]? with
  | .int, some .integer => some (s.push .integer)
  | .reference, some (.object className) => some (s.push (.object className))
  | _, _ => none

/-- Local variables that were not used before are of type `top`. -/
def assign (s : TypeState) (slot : Nat) (t : SlotType) : TypeState :=
  { s with locals := (s.locals ++ List.replicate (slot + 1 - s.locals.length) SlotType.top).set slot t }

def store? (s : TypeState) (kind : ValueKind) (slot : Nat) : Option TypeState :=
  match kind, s.stack with
  | .int, .integer :: stack => some ({ s with stack }.assign slot .integer)
  | .reference, .object className :: stack => some ({ s with stack }.assign slot (.object className))
  | _, _ => none

def call? (s : TypeState) (receiver : List SlotType) (descriptor : String) : Option TypeState := do
  let (params, result) ← JavaType.ofMethodDescriptor? descriptor
  let types ← params.mapM SlotType.ofJava?
  let s ← s.pop? (types.reverse ++ receiver)
  if result = .void then return s else return s.push (← SlotType.ofJava? result)

end TypeState

/-! ## Instructions -/

namespace Instruction

/-- The types after an instruction; `none` if it does not find the operands that it needs. -/
def after? (pool : ConstantPool) (s : TypeState) : Instruction → Option TypeState
  | .iconst _ | .bipush _ | .sipush _ => some (s.push .integer)
  | .ldc index => (pool.loadable? index.toUInt16).map s.push
  | .ldcWide index => (pool.loadable? index).map s.push
  | .load kind slot => s.load? kind slot.index.toNat
  | .store kind slot => s.store? kind slot.index.toNat
  | .arithmetic _ => (s.pop? [.integer, .integer]).map (·.push .integer)
  | .branch .. => s.pop? [.integer, .integer]
  | .goto _ | .returnVoid => some s
  | .getStatic index =>
    (((pool.field? index).bind fun m => JavaType.ofFieldDescriptor? m.descriptor).bind SlotType.ofJava?).map s.push
  | .invokeVirtual index => (pool.method? index).bind fun m => s.call? [.object m.owner] m.descriptor
  | .invokeStatic index => (pool.method? index).bind fun m => s.call? [] m.descriptor
  | .dup | .putStatic _ | .invokeSpecial _ | .new _ => none

def slot? : Instruction → Option UInt16
  | .load _ slot | .store _ slot => some slot.index
  | _ => none

def offset? : Instruction → Option Int16
  | .branch _ offset | .goto offset => some offset
  | _ => none

def fallsThrough : Instruction → Bool
  | .goto _ | .returnVoid => false
  | _ => true

end Instruction

/-! ## Methods -/

/-- Each type of the frame is `top` or the type that there is. -/
def localsSuit : List SlotType → List SlotType → Bool
  | [], _ => true
  | t :: frame, locals => (t = .top || locals.head? = some t) && localsSuit frame locals.tail

def TypeState.suits (s : TypeState) (f : TypeFrame SlotType) : Bool :=
  s.stack = f.stack.reverse && localsSuit f.locals s.locals

def TypeFrame.state (f : TypeFrame SlotType) : TypeState := ⟨f.locals, f.stack.reverse⟩

structure Verifier where
  pool : ConstantPool
  maxStack : Nat
  maxLocals : Nat
  frames : List (TypeFrame SlotType)

namespace Verifier

def frameAt? (v : Verifier) (address : Nat) : Option (TypeFrame SlotType) :=
  v.frames.find? fun f => f.address = address

/-- The types with which an instruction is reached, if those of the instruction before it are `current`. There are none
after an instruction that control does not go on from. -/
def arrive? (v : Verifier) (address : Nat) (current : Option TypeState) : Option TypeState :=
  match v.frameAt? address, current with
  | some f, some s => if s.suits f then some f.state else none
  | some f, none => some f.state
  | none, current => current

def branchSuits (v : Verifier) (address : Nat) (s : TypeState) (i : Instruction) : Bool :=
  match i.offset? with
  | none => true
  | some offset =>
    0 ≤ (address : Int) + offset.toInt && (v.frameAt? ((address : Int) + offset.toInt).toNat).any s.suits

def hasRoom (v : Verifier) (s : TypeState) (i : Instruction) : Bool :=
  s.stack.length ≤ v.maxStack && i.slot?.all (·.toNat < v.maxLocals)

/-- Walks the code from an address on. Control does not run past the last instruction. -/
def walk (v : Verifier) : Nat → Option TypeState → List Instruction → Bool
  | _, current, [] => current.isNone
  | address, current, i :: rest =>
    match (v.arrive? address current).bind (i.after? v.pool) with
    | none => false
    | some s =>
      v.hasRoom s i && v.branchSuits address s i &&
        v.walk (address + i.size) (if i.fallsThrough then some s else none) rest

def frameFits (v : Verifier) (code : List Instruction) (f : TypeFrame SlotType) : Bool :=
  f.stack.length ≤ v.maxStack && f.locals.length ≤ v.maxLocals && (addresses code).contains f.address

def accepts (v : Verifier) (entry : List SlotType) (code : List Instruction) : Bool :=
  entry.length ≤ v.maxLocals && v.frames.all (v.frameFits code) && v.walk 0 (some ⟨entry, []⟩) code

end Verifier

namespace ClassFile

def frames? (c : ClassFile) (entry : List SlotType) (code : Code) : Option (List (TypeFrame SlotType)) :=
  match code.attributes.find? fun a => c.pool.text? a.name = some "StackMapTable" with
  | some a => Frame.readTable? c.pool.slotType? entry a.info
  | none => some []

/-- Checks a static method without a result. Its frame at the start has the types of its parameters. -/
def verify? (c : ClassFile) (name : String) : Option Bool := do
  let m ← c.method? name
  let (params, result) ← JavaType.ofMethodDescriptor? (← c.pool.text? m.descriptor)
  let entry ← params.mapM SlotType.ofJava?
  let code ← c.code? name
  let instructions ← (disassemble code.code).toOption
  let frames ← c.frames? entry code
  let verifier : Verifier := ⟨c.pool, code.maxStack.toNat, code.maxLocals.toNat, frames⟩
  return m.access &&& Access.isStatic ≠ 0 && result = .void && code.handlers.isEmpty &&
    verifier.accepts entry instructions

def verifies (c : ClassFile) (name : String) : Bool := c.verify? name = some true

end ClassFile

end KnightCode
