import KnightCode.Proofs.Calls
import KnightCode.Proofs.Machine

/-!
# What indices lead to

If an index leads to a constant with some contents, looking it up gives these contents.
-/

namespace KnightCode

namespace ConstantPool

variable {pool : ConstantPool} {i : UInt16}

theorem IsText.text? {text : String} (h : pool.IsText i text) : pool.text? i = some text := by
  have h : pool.get? i = some (.utf8 (ModifiedUtf8.encode text)) := h
  rw [ConstantPool.text?, textBytes?, h, Option.map_some, ModifiedUtf8.decode_encode]

theorem IsClass.className? {name : String} (h : pool.IsClass i name) : pool.className? i = some name := by
  obtain ⟨n, hn, hname⟩ := h
  rw [ConstantPool.className?, hn]
  exact hname.text?

theorem IsInteger.datum? {value : Int32} (h : pool.IsInteger i value) : pool.datum? i = some (.int value) := by
  have h : pool.get? i = some (.integer value) := h
  rw [ConstantPool.datum?, h]

theorem IsString.datum? {text : String} (h : pool.IsString i text) : pool.datum? i = some (.text text) := by
  obtain ⟨n, hn, htext⟩ := h
  rw [ConstantPool.datum?, hn]
  simp only [htext.text?, Option.map_some]

theorem IsNameAndType.nameAndType? {name descriptor : String} (h : pool.IsNameAndType i name descriptor) :
    pool.nameAndType? i = some (name, descriptor) := by
  obtain ⟨n, d, hget, hname, hdescriptor⟩ := h
  rw [ConstantPool.nameAndType?, hget]
  simp only [hname.text?, hdescriptor.text?]
  rfl

theorem member?_eq {owner member : UInt16} {m : MemberRef} (howner : pool.IsClass owner m.owner)
    (hmember : pool.IsNameAndType member m.name m.descriptor) : pool.member? owner member = some m := by
  rw [member?, hmember.nameAndType?, howner.className?]
  rfl

theorem IsField.field? {m : MemberRef} (h : pool.IsField i m) : pool.field? i = some m := by
  obtain ⟨o, n, hget, howner, hmember⟩ := h
  rw [ConstantPool.field?, hget]
  exact member?_eq howner hmember

theorem IsMethod.method? {m : MemberRef} (h : pool.IsMethod i m) : pool.method? i = some m := by
  obtain ⟨o, n, hget, howner, hmember⟩ := h
  rw [ConstantPool.method?, hget]
  exact member?_eq howner hmember

end ConstantPool

@[simp] theorem Slot.index_ofIndex (index : UInt16) : (Slot.ofIndex index).index = index := by
  unfold Slot.ofIndex
  split
  · simp [Slot.index]
  · split
    · next small => exact toUInt16_toUInt8 small
    · rfl

end KnightCode
