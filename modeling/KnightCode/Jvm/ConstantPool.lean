import KnightCode.Jvm.Constant
import KnightCode.Jvm.ModifiedUtf8
import KnightCode.Register

/-!
# Constant pools

A pool is a register of constants. Asking for a constant gives its index and adds it when it is not there yet. What was
added before a request fails stays.
-/

namespace KnightCode

structure ConstantPool where
  constants : Register Bytes Constant Constant.bytes
  /-- The stored size: by rule one more than the number of constants. -/
  sizeField : UInt16

inductive PoolError
  | full
  | textTooLong (length : Nat)
  deriving DecidableEq, Repr

def PoolError.message : PoolError → String
  | .full => "constant pool exceeds 65534 entries"
  | .textTooLong length => s!"string constant is {length} bytes long; the limit is 65535"

abbrev Interning := EStateM PoolError ConstantPool

namespace ConstantPool

def empty : ConstantPool := ⟨.empty, 1⟩

def size (pool : ConstantPool) : Nat := pool.constants.size

def ofList (constants : List Constant) (sizeField : UInt16) : ConstantPool :=
  ⟨.ofArray constants.toArray, sizeField⟩

/-- Adds a constant and leaves the stored size as it is. -/
def append (pool : ConstantPool) (c : Constant) : ConstantPool :=
  { pool with constants := pool.constants.push c }

def sync (pool : ConstantPool) : ConstantPool := { pool with sizeField := (pool.size + 1).toUInt16 }

/-! ## Looking up -/

def get? (pool : ConstantPool) (index : UInt16) : Option Constant :=
  if index = 0 then none else pool.constants.entries[index.toNat - 1]?

def textBytes? (pool : ConstantPool) (index : UInt16) : Option Bytes :=
  match pool.get? index with
  | some (.utf8 bytes) => some bytes
  | _ => none

def text? (pool : ConstantPool) (index : UInt16) : Option String :=
  (pool.textBytes? index).map ModifiedUtf8.decode

def className? (pool : ConstantPool) (index : UInt16) : Option String :=
  match pool.get? index with
  | some (.classRef name) => pool.text? name
  | _ => none

/-! ## Asking for constants -/

/-- The index of a constant, which is added if it is new. -/
def intern (c : Constant) : Interning UInt16 := fun pool =>
  match pool.constants.position? c.bytes with
  | some i => .ok (i + 1).toUInt16 pool
  | none =>
    -- The stored size is one more than the number of constants, and has to fit a word.
    if pool.size + 1 ≥ 65535 then .error .full pool
    else
      let pool := (pool.append c).sync
      .ok pool.size.toUInt16 pool

def utf8 (text : String) : Interning UInt16 :=
  let bytes := ModifiedUtf8.encode text
  if bytes.length > 65535 then throw (.textTooLong bytes.length) else intern (.utf8 bytes)

def integer (value : Int32) : Interning UInt16 := intern (.integer value)

def classRef (name : String) : Interning UInt16 := do intern (.classRef (← utf8 name))

def string (text : String) : Interning UInt16 := do intern (.string (← utf8 text))

def nameAndType (name descriptor : String) : Interning UInt16 := do
  let name ← utf8 name
  let descriptor ← utf8 descriptor
  intern (.nameAndType name descriptor)

def fieldRef (owner name descriptor : String) : Interning UInt16 := do
  let owner ← classRef owner
  let member ← nameAndType name descriptor
  intern (.fieldRef owner member)

def methodRef (owner name descriptor : String) : Interning UInt16 := do
  let owner ← classRef owner
  let member ← nameAndType name descriptor
  intern (.methodRef owner member)

end ConstantPool

end KnightCode
