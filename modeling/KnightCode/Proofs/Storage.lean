import KnightCode.Jvm.ClassFile
import KnightCode.Proofs.Words

/-!
# Class files read back

A class file whose stored counts and lengths are those that it has is read back from its bytes, whatever follows them.
-/

namespace KnightCode

open Bytes

/-! ## Attributes and members -/

def Attribute.Stored (a : Attribute) : Prop := a.length.toNat = a.info.length

theorem Attribute.read_bytes {a : Attribute} (h : a.Stored) (rest : Bytes) :
    Attribute.read (a.bytes ++ rest) = some (a, rest) := by
  simp [Attribute.read, Attribute.bytes, readExactly_of_length h.symm]

theorem Attribute.stored_make (name : UInt16) {info : Bytes} (h : info.length < UInt32.size) :
    (Attribute.make name info).Stored :=
  UInt32.toNat_ofNat_of_lt h

structure Member.Stored (m : Member) : Prop where
  count : m.attributesCount.toNat = m.attributes.length
  attributes : ∀ a ∈ m.attributes, a.Stored

theorem Member.read_bytes {m : Member} (h : m.Stored) (rest : Bytes) :
    Member.read (m.bytes ++ rest) = some (m, rest) := by
  have hattributes := readMany_flatMap h.count.symm (fun a ha => Attribute.read_bytes (h.attributes a ha)) rest
  simp [Member.read, Member.bytes, hattributes]

/-! ## Code -/

theorem Handler.read_bytes (h : Handler) (rest : Bytes) : Handler.read (h.bytes ++ rest) = some (h, rest) := by
  simp [Handler.read, Handler.bytes]

structure Code.Stored (c : Code) : Prop where
  length : c.codeLength.toNat = c.code.length
  handlersCount : c.handlersCount.toNat = c.handlers.length
  attributesCount : c.attributesCount.toNat = c.attributes.length
  attributes : ∀ a ∈ c.attributes, a.Stored

theorem Code.read_bytes {c : Code} (h : c.Stored) (rest : Bytes) : Code.read (c.bytes ++ rest) = some (c, rest) := by
  have hattributes := readMany_flatMap h.attributesCount.symm (fun a ha => Attribute.read_bytes (h.attributes a ha)) rest
  have hhandlers := fun tail => readMany_flatMap h.handlersCount.symm (fun a _ => Handler.read_bytes a) tail
  simp [Code.read, Code.bytes, readExactly_of_length h.length.symm, hattributes, hhandlers]

theorem Code.stored_make (maxStack maxLocals : UInt16) {code : Bytes} {attributes : List Attribute}
    (hcode : code.length < UInt32.size) (hcount : attributes.length < 65536) (hstored : ∀ a ∈ attributes, a.Stored) :
    (Code.make maxStack maxLocals code [] attributes).Stored :=
  ⟨UInt32.toNat_ofNat_of_lt hcode, rfl, Nat.mod_eq_of_lt hcount, hstored⟩

theorem Code.ofAttribute_make (name : UInt16) {c : Code} (h : c.Stored) :
    Code.ofAttribute (.make name c.bytes) = .ok c := by
  have hread := Code.read_bytes h []
  rw [List.append_nil] at hread
  rw [Code.ofAttribute, Attribute.make, hread]

/-! ## Constants -/

def Constant.Stored : Constant → Prop
  | .utf8 text => text.length ≤ 65535
  | _ => True

theorem Constant.read_bytes {c : Constant} (h : c.Stored) (rest : Bytes) :
    Constant.read (c.bytes ++ rest) = some (c, rest) := by
  cases c with
  | utf8 text =>
    have hlength : text.length % 65536 = text.length := Nat.mod_eq_of_lt (Nat.lt_succ_of_le h)
    simp [Constant.read, Constant.bytes, hlength, readExactly_append]
  | integer value => simp [Constant.read, Constant.bytes]
  | classRef name => simp [Constant.read, Constant.bytes]
  | string text => simp [Constant.read, Constant.bytes]
  | fieldRef owner member => simp [Constant.read, Constant.bytes, Constant.readPair]
  | methodRef owner member => simp [Constant.read, Constant.bytes, Constant.readPair]
  | nameAndType name descriptor => simp [Constant.read, Constant.bytes, Constant.readPair]

namespace ClassFile

theorem readConstantsOnto_flatMap (l : List Constant) (h : ∀ c ∈ l, c.Stored) (position : Nat) (acc : List Constant)
    (rest : Bytes) :
    readConstantsOnto position l.length acc (l.flatMap Constant.bytes ++ rest) = .ok (acc.reverse ++ l, rest) := by
  induction l generalizing position acc with
  | nil => simp [readConstantsOnto]
  | cons c l ih =>
    rw [List.flatMap_cons, List.append_assoc, List.length_cons, readConstantsOnto, Constant.read_bytes (h c (by simp))]
    simp only
    rw [ih (fun d hd => h d (by simp [hd])) _ (c :: acc)]
    simp

/-! ## Classes -/

/-- The stored counts and lengths are those that the reader goes by. A stored size of zero is to it, like one, that of a
pool without constants. -/
structure Counted (c : ClassFile) : Prop where
  poolSize : c.pool.sizeField.toNat - 1 = c.pool.constants.entries.size
  constants : ∀ k ∈ c.pool.constants.entries.toList, k.Stored
  interfacesCount : c.interfacesCount.toNat = c.interfaces.length
  fieldsCount : c.fieldsCount.toNat = c.fields.length
  fields : ∀ m ∈ c.fields, m.Stored
  methodsCount : c.methodsCount.toNat = c.methods.length
  methods : ∀ m ∈ c.methods, m.Stored
  attributesCount : c.attributesCount.toNat = c.attributes.length
  attributes : ∀ a ∈ c.attributes, a.Stored

/-- All counts and lengths that the class stores are those that it has. -/
structure Stored (c : ClassFile) : Prop extends Counted c where
  sizeField_eq : c.pool.sizeField.toNat = c.pool.constants.entries.size + 1

def bodyBytes (c : ClassFile) : Bytes :=
  ofUInt16 c.access ++ (ofUInt16 c.thisClass ++ (ofUInt16 c.superClass ++
    (ofUInt16 c.interfacesCount ++ (c.interfaces.flatMap ofUInt16 ++
      (ofUInt16 c.fieldsCount ++ (c.fields.flatMap Member.bytes ++
        (ofUInt16 c.methodsCount ++ (c.methods.flatMap Member.bytes ++
          (ofUInt16 c.attributesCount ++ c.attributes.flatMap Attribute.bytes)))))))))

theorem bytes_eq (c : ClassFile) :
    c.bytes = magic ++ (ofUInt16 c.minor ++ (ofUInt16 c.major ++ (ofUInt16 c.pool.sizeField ++
      (c.pool.constants.entries.toList.flatMap Constant.bytes ++ c.bodyBytes)))) :=
  rfl

theorem readBody_bytes {c : ClassFile} (h : c.Counted) (rest : Bytes) :
    readBody c.minor c.major c.pool (c.bodyBytes ++ rest) = some (c, rest) := by
  have hinterfaces := fun tail => readMany_flatMap h.interfacesCount.symm (fun i _ => readUInt16_ofUInt16 i) tail
  have hfields := fun tail => readMany_flatMap h.fieldsCount.symm (fun m hm => Member.read_bytes (h.fields m hm)) tail
  have hmethods := fun tail => readMany_flatMap h.methodsCount.symm (fun m hm => Member.read_bytes (h.methods m hm)) tail
  have hattributes := readMany_flatMap h.attributesCount.symm (fun a ha => Attribute.read_bytes (h.attributes a ha)) rest
  simp only [readBody, bodyBytes, List.append_assoc, readUInt16_ofUInt16, Option.bind_eq_bind, Option.bind_some,
    hinterfaces, hfields, hmethods, hattributes, Option.pure_def]

theorem ofList_eq (pool : ConstantPool) : ConstantPool.ofList pool.constants.entries.toList pool.sizeField = pool := by
  obtain ⟨constants, sizeField⟩ := pool
  rw [ConstantPool.ofList, show Register.ofArray constants.entries.toList.toArray = constants from
    Register.ext_entries (by simp [Register.ofArray])]

theorem readHeader_bytes (minor major sizeField : UInt16) (rest : Bytes) :
    readHeader (ofUInt16 minor ++ (ofUInt16 major ++ (ofUInt16 sizeField ++ rest))) =
      some ((minor, major, sizeField), rest) := by
  simp [readHeader]

theorem read_bytes {c : ClassFile} (h : c.Counted) (rest : Bytes) :
    ClassFile.read (c.bytes ++ rest) = .ok (c, rest) := by
  have hmagic := fun tail => readExactly_of_length (show magic.length = 4 from rfl) tail
  have hconstants := readConstantsOnto_flatMap _ h.constants 10 [] (c.bodyBytes ++ rest)
  have hcount : c.pool.sizeField.toNat - 1 = c.pool.constants.entries.toList.length := by
    rw [h.poolSize, Array.length_toList]
  rw [bytes_eq]
  simp only [List.append_assoc, ClassFile.read, hmagic, orTruncated, readHeader_bytes, hcount, bind, Except.bind,
    hconstants, List.reverse_nil, List.nil_append, ofList_eq, readBody_bytes h]
  rfl

end ClassFile

end KnightCode
