import KnightCode.Jvm.ConstantPool

/-!
# Class files

A class file, its members and their attributes, with the bytes of each. Counts and lengths are part of the value: they
are written as they are stored.
-/

namespace KnightCode

inductive ReadError
  /-- The bytes are not those of a class file. -/
  | badMagic
  /-- No constant can be read at this position. -/
  | constant (position : Nat)
  /-- No instruction can be read at this position. -/
  | instruction (position : Nat)
  /-- The bytes end too early. -/
  | truncated
  deriving DecidableEq, Repr

/-! ## Attributes -/

structure Attribute where
  name : UInt16
  length : UInt32
  info : Bytes
  deriving DecidableEq, Repr

namespace Attribute

def make (name : UInt16) (info : Bytes) : Attribute := ⟨name, info.length.toUInt32, info⟩

def bytes (a : Attribute) : Bytes := Bytes.ofUInt16 a.name ++ (Bytes.ofUInt32 a.length ++ a.info)

def read (bytes : Bytes) : Option (Attribute × Bytes) := do
  let (name, bytes) ← Bytes.readUInt16 bytes
  let (length, bytes) ← Bytes.readUInt32 bytes
  let (info, bytes) ← Bytes.readExactly length.toNat bytes
  return (⟨name, length, info⟩, bytes)

end Attribute

/-! ## Fields and methods -/

structure Member where
  access : UInt16
  name : UInt16
  descriptor : UInt16
  attributesCount : UInt16
  attributes : List Attribute
  deriving DecidableEq, Repr

namespace Member

def make (access name descriptor : UInt16) (attributes : List Attribute) : Member :=
  ⟨access, name, descriptor, attributes.length.toUInt16, attributes⟩

def bytes (m : Member) : Bytes :=
  Bytes.ofUInt16 m.access ++ (Bytes.ofUInt16 m.name ++ (Bytes.ofUInt16 m.descriptor ++
    (Bytes.ofUInt16 m.attributesCount ++ m.attributes.flatMap Attribute.bytes)))

def read (bytes : Bytes) : Option (Member × Bytes) := do
  let (access, bytes) ← Bytes.readUInt16 bytes
  let (name, bytes) ← Bytes.readUInt16 bytes
  let (descriptor, bytes) ← Bytes.readUInt16 bytes
  let (attributesCount, bytes) ← Bytes.readUInt16 bytes
  let (attributes, bytes) ← Bytes.readMany Attribute.read attributesCount.toNat bytes
  return (⟨access, name, descriptor, attributesCount, attributes⟩, bytes)

end Member

/-! ## Code -/

structure Handler where
  start : UInt16
  stop : UInt16
  target : UInt16
  catchType : UInt16
  deriving DecidableEq, Repr

namespace Handler

def bytes (h : Handler) : Bytes :=
  Bytes.ofUInt16 h.start ++ (Bytes.ofUInt16 h.stop ++ (Bytes.ofUInt16 h.target ++ Bytes.ofUInt16 h.catchType))

def read (bytes : Bytes) : Option (Handler × Bytes) := do
  let (start, bytes) ← Bytes.readUInt16 bytes
  let (stop, bytes) ← Bytes.readUInt16 bytes
  let (target, bytes) ← Bytes.readUInt16 bytes
  let (catchType, bytes) ← Bytes.readUInt16 bytes
  return (⟨start, stop, target, catchType⟩, bytes)

end Handler

structure Code where
  maxStack : UInt16
  maxLocals : UInt16
  codeLength : UInt32
  code : Bytes
  handlersCount : UInt16
  handlers : List Handler
  attributesCount : UInt16
  attributes : List Attribute
  deriving DecidableEq, Repr

namespace Code

def make (maxStack maxLocals : UInt16) (code : Bytes) (handlers : List Handler) (attributes : List Attribute) : Code :=
  ⟨maxStack, maxLocals, code.length.toUInt32, code, handlers.length.toUInt16, handlers,
    attributes.length.toUInt16, attributes⟩

def bytes (c : Code) : Bytes :=
  Bytes.ofUInt16 c.maxStack ++ (Bytes.ofUInt16 c.maxLocals ++ (Bytes.ofUInt32 c.codeLength ++ (c.code ++
    (Bytes.ofUInt16 c.handlersCount ++ (c.handlers.flatMap Handler.bytes ++
      (Bytes.ofUInt16 c.attributesCount ++ c.attributes.flatMap Attribute.bytes))))))

def read (bytes : Bytes) : Option (Code × Bytes) := do
  let (maxStack, bytes) ← Bytes.readUInt16 bytes
  let (maxLocals, bytes) ← Bytes.readUInt16 bytes
  let (codeLength, bytes) ← Bytes.readUInt32 bytes
  let (code, bytes) ← Bytes.readExactly codeLength.toNat bytes
  let (handlersCount, bytes) ← Bytes.readUInt16 bytes
  let (handlers, bytes) ← Bytes.readMany Handler.read handlersCount.toNat bytes
  let (attributesCount, bytes) ← Bytes.readUInt16 bytes
  let (attributes, bytes) ← Bytes.readMany Attribute.read attributesCount.toNat bytes
  return (⟨maxStack, maxLocals, codeLength, code, handlersCount, handlers, attributesCount, attributes⟩, bytes)

def ofAttribute (a : Attribute) : Except ReadError Code :=
  match read a.info with
  | some (code, _) => .ok code
  | none => .error .truncated

end Code

/-! ## Classes -/

def Access.isPublic : UInt16 := 0x0001

def Access.isPrivate : UInt16 := 0x0002

def Access.isStatic : UInt16 := 0x0008

def Access.isFinal : UInt16 := 0x0010

def Access.isSuper : UInt16 := 0x0020

structure ClassFile where
  minor : UInt16
  major : UInt16
  pool : ConstantPool
  access : UInt16
  thisClass : UInt16
  superClass : UInt16
  interfacesCount : UInt16
  interfaces : List UInt16
  fieldsCount : UInt16
  fields : List Member
  methodsCount : UInt16
  methods : List Member
  attributesCount : UInt16
  attributes : List Attribute

namespace ClassFile

def make (major : UInt16) (name superName : String) : Except PoolError ClassFile :=
  let naming : Interning (UInt16 × UInt16) := do
    let thisClass ← ConstantPool.classRef name
    let superClass ← ConstantPool.classRef superName
    return (thisClass, superClass)
  match naming .empty with
  | .ok (thisClass, superClass) pool =>
    .ok ⟨0, major, pool, Access.isPublic ||| Access.isSuper, thisClass, superClass, 0, [], 0, [], 0, [], 0, []⟩
  | .error e _ => .error e

/-- Stores the counts that the class has. -/
def sync (c : ClassFile) : ClassFile :=
  { c with
    pool := c.pool.sync
    interfacesCount := c.interfaces.length.toUInt16
    fieldsCount := c.fields.length.toUInt16
    methodsCount := c.methods.length.toUInt16
    attributesCount := c.attributes.length.toUInt16 }

def method? (c : ClassFile) (name : String) : Option Member :=
  c.methods.find? fun m => c.pool.text? m.name == some name

def magic : Bytes := [0xCA, 0xFE, 0xBA, 0xBE]

def bytes (c : ClassFile) : Bytes :=
  magic ++ (Bytes.ofUInt16 c.minor ++ (Bytes.ofUInt16 c.major ++
    (Bytes.ofUInt16 c.pool.sizeField ++ (c.pool.constants.entries.toList.flatMap Constant.bytes ++
      (Bytes.ofUInt16 c.access ++ (Bytes.ofUInt16 c.thisClass ++ (Bytes.ofUInt16 c.superClass ++
        (Bytes.ofUInt16 c.interfacesCount ++ (c.interfaces.flatMap Bytes.ofUInt16 ++
          (Bytes.ofUInt16 c.fieldsCount ++ (c.fields.flatMap Member.bytes ++
            (Bytes.ofUInt16 c.methodsCount ++ (c.methods.flatMap Member.bytes ++
              (Bytes.ofUInt16 c.attributesCount ++ c.attributes.flatMap Attribute.bytes))))))))))))))

/-- Reads `n` constants, the first at `position`, onto the reversed list `acc`. -/
def readConstantsOnto (position : Nat) : Nat → List Constant → Bytes → Except ReadError (List Constant × Bytes)
  | 0, acc, bytes => .ok (acc.reverse, bytes)
  | n + 1, acc, bytes =>
    match Constant.read bytes with
    | some (c, rest) => readConstantsOnto (position + c.size) n (c :: acc) rest
    | none => .error (.constant position)

def readBody (minor major : UInt16) (pool : ConstantPool) (bytes : Bytes) : Option (ClassFile × Bytes) := do
  let (access, bytes) ← Bytes.readUInt16 bytes
  let (thisClass, bytes) ← Bytes.readUInt16 bytes
  let (superClass, bytes) ← Bytes.readUInt16 bytes
  let (interfacesCount, bytes) ← Bytes.readUInt16 bytes
  let (interfaces, bytes) ← Bytes.readMany Bytes.readUInt16 interfacesCount.toNat bytes
  let (fieldsCount, bytes) ← Bytes.readUInt16 bytes
  let (fields, bytes) ← Bytes.readMany Member.read fieldsCount.toNat bytes
  let (methodsCount, bytes) ← Bytes.readUInt16 bytes
  let (methods, bytes) ← Bytes.readMany Member.read methodsCount.toNat bytes
  let (attributesCount, bytes) ← Bytes.readUInt16 bytes
  let (attributes, bytes) ← Bytes.readMany Attribute.read attributesCount.toNat bytes
  return (⟨minor, major, pool, access, thisClass, superClass, interfacesCount, interfaces, fieldsCount, fields,
    methodsCount, methods, attributesCount, attributes⟩, bytes)

def readHeader (bytes : Bytes) : Option ((UInt16 × UInt16 × UInt16) × Bytes) := do
  let (minor, bytes) ← Bytes.readUInt16 bytes
  let (major, bytes) ← Bytes.readUInt16 bytes
  let (sizeField, bytes) ← Bytes.readUInt16 bytes
  return ((minor, major, sizeField), bytes)

def orTruncated {α : Type} (result : Option α) : Except ReadError α :=
  match result with
  | some a => .ok a
  | none => .error .truncated

/-- Reads a class and gives back the bytes after it. The constants start after ten bytes. -/
def read (bytes : Bytes) : Except ReadError (ClassFile × Bytes) := do
  let (start, bytes) ← orTruncated (Bytes.readExactly 4 bytes)
  if start != magic then throw .badMagic
  let ((minor, major, sizeField), bytes) ← orTruncated (readHeader bytes)
  let (constants, bytes) ← readConstantsOnto 10 (sizeField.toNat - 1) [] bytes
  orTruncated (readBody minor major (.ofList constants sizeField) bytes)

end ClassFile

end KnightCode
