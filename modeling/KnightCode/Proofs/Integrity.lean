import KnightCode.Proofs.Console
import KnightCode.Proofs.StoredCode

/-!
# Compiled classes are intact

All indices in a compiled class lead to constants of the right kinds: those of its members and attributes, those in the
code of every method, and those in the frames of the code. The class is read back from its bytes, and the code of `main`
from the class.
-/

namespace KnightCode

/-! ## Indices in code -/

/-- The index in the instruction, if it has one, leads to a constant that the instruction can use. -/
def Instruction.Refers (pool : ConstantPool) : Instruction → Prop
  | .ldc i => (∃ value, pool.IsInteger i.toUInt16 value) ∨ ∃ text, pool.IsString i.toUInt16 text
  | .ldcWide i => (∃ value, pool.IsInteger i value) ∨ ∃ text, pool.IsString i text
  | .getStatic i | .putStatic i => ∃ m, pool.IsField i m
  | .invokeVirtual i | .invokeSpecial i | .invokeStatic i => ∃ m, pool.IsMethod i m
  | .new i => ∃ name, pool.IsClass i name
  | _ => True

theorem Instruction.LoadsInt.refers {pool : ConstantPool} {value : Int32} {i : Instruction}
    (h : i.LoadsInt pool value) : i.Refers pool := by
  cases i with
  | ldc index => exact .inl ⟨value, h⟩
  | ldcWide index => exact .inl ⟨value, h⟩
  | iconst n => trivial
  | bipush v => trivial
  | sipush v => trivial
  | _ => cases h

theorem Instruction.LoadsText.refers {pool : ConstantPool} {text : String} {i : Instruction}
    (h : i.LoadsText pool text) : i.Refers pool := by
  cases i with
  | ldc index => exact .inr ⟨text, h⟩
  | ldcWide index => exact .inr ⟨text, h⟩
  | _ => cases h

theorem Call.Emits.refers {pool : ConstantPool} {call : Call} {item : Item} {b : Body} {address : Nat}
    {i : Instruction} (h : call.Emits pool item) (hi : b.Becomes address item i) : i.Refers pool := by
  cases call with
  | pushInt value => obtain ⟨_, rfl, hloads⟩ := h; cases hi; exact hloads.refers
  | pushText text => obtain ⟨_, rfl, hloads⟩ := h; cases hi; exact hloads.refers
  | load slot kind => obtain rfl := h; cases hi; trivial
  | store slot kind => obtain rfl := h; cases hi; trivial
  | arithmetic op => obtain rfl := h; cases hi; trivial
  | newLabel => exact h.elim
  | bind label => exact h.elim
  | branch condition label => obtain rfl := h; cases hi; trivial
  | jump label => obtain rfl := h; cases hi; trivial
  | getStatic m => obtain ⟨_, rfl, hm⟩ := h; cases hi; exact ⟨m, hm⟩
  | putStatic m => obtain ⟨_, rfl, hm⟩ := h; cases hi; exact ⟨m, hm⟩
  | invokeVirtual m => obtain ⟨_, rfl, hm⟩ := h; cases hi; exact ⟨m, hm⟩
  | invokeStatic m => obtain ⟨_, rfl, hm⟩ := h; cases hi; exact ⟨m, hm⟩
  | invokeSpecial m => obtain ⟨_, rfl, hm⟩ := h; cases hi; exact ⟨m, hm⟩
  | new className => obtain ⟨_, rfl, hname⟩ := h; cases hi; exact ⟨className, hname⟩
  | dup => obtain rfl := h; cases hi; trivial

theorem Artifact.Built.refers {pool later : ConstantPool} {thisClass : UInt16} {entry : List VerificationType}
    {frames : Bool} {calls : List Call} {b : Body} {code : MethodCode}
    (h : Built pool thisClass entry frames calls b code) (hext : b.pool.Extends later) :
    ∀ i ∈ code.instructions, i.Refers later := by
  intro i hi
  obtain rfl | ⟨call, -, item, address, hemits, hbecomes⟩ := h.call_of_mem hi
  · trivial
  · exact (hemits.mono hext).refers hbecomes

/-! ## Indices in frames -/

def FrameEntry.types : FrameEntry → List VerificationType
  | .same _ | .sameFar _ | .chop .. => []
  | .sameOneItem _ item | .sameOneItemFar _ item => [item]
  | .append _ locals => locals
  | .full _ locals stack => locals ++ stack

theorem FrameEntry.Stores.types_subset {before : List VerificationType} {delta : UInt16} {f : Frame} {e : FrameEntry}
    (h : Stores before delta f e) : e.types ⊆ f.locals ++ f.stack := by
  cases h with
  | @append added _ hlocals _ =>
    rw [← hlocals]
    exact fun t ht => List.mem_append_left _ (List.mem_append_right _ ht)
  | sameOneItem hstack => simp [types, hstack]
  | sameOneItemFar hstack => simp [types, hstack]
  | full => exact List.Subset.refl _
  | _ => exact List.nil_subset _

namespace Frame

theorem types_entriesFrom {start : Nat} {before : List VerificationType} {frames : List Frame} {e : FrameEntry}
    (he : e ∈ entriesFrom start before frames) {t : VerificationType} (ht : t ∈ e.types) :
    ∃ f ∈ frames, t ∈ f.locals ++ f.stack := by
  induction frames generalizing start before with
  | nil => cases he
  | cons f frames ih =>
    rcases List.mem_cons.1 he with rfl | he
    · exact ⟨f, .head _, (FrameEntry.ofFrame_stores ..).types_subset ht⟩
    · obtain ⟨g, hg, ht⟩ := ih he
      exact ⟨g, .tail _ hg, ht⟩

theorem types_table? {entry : List VerificationType} {records : List Frame} {entries : List FrameEntry}
    (h : table? entry records = some entries) {e : FrameEntry} (he : e ∈ entries) {t : VerificationType}
    (ht : t ∈ e.types) : ∃ r ∈ records, t ∈ r.locals ++ r.stack := by
  rw [entries_of_table? h] at he
  obtain ⟨f, hf, ht⟩ := types_entriesFrom he ht
  obtain ⟨r, hr, rfl⟩ := mem_toStore hf
  refine ⟨r, hr, ?_⟩
  rcases List.mem_append.1 ht with ht | ht
  · exact List.mem_append_left _ ((trim_sublist r.locals).subset ht)
  · exact List.mem_append_right _ ht

end Frame

/-! ## The code of a method -/

/-- The table is read back from its bytes, and the types in it have their classes. -/
def Frame.Intact (pool : ConstantPool) (entries : List FrameEntry) (bytes : Bytes) : Prop :=
  Frame.readEntries? bytes = some entries ∧ ∀ e ∈ entries, ∀ t ∈ e.types, t.Named pool

/-- Code that can be stored in a class with this pool. -/
structure MethodCode.Intact (pool : ConstantPool) (code : MethodCode) : Prop where
  short : code.Short
  nonempty : code.instructions ≠ []
  refers : ∀ i ∈ code.instructions, i.Refers pool
  frames : ∀ entries, code.frames = some entries → Frame.Intact pool entries (Frame.tableBytes entries)

namespace Artifact

section Built

variable {pool later : ConstantPool} {thisClass : UInt16} {entry : List VerificationType} {frames : Bool}
  {calls : List Call} {b : Body} {code : MethodCode} (h : Built pool thisClass entry frames calls b code)
include h

theorem Built.frames_eq_none (hlabels : .newLabel ∉ calls) : code.frames = none := by
  have hsize := h.performs.labels_size
  rw [List.count_eq_zero_of_not_mem hlabels] at hsize
  have hempty : b.labels = #[] := Array.eq_empty_of_size_eq_zero hsize
  have htargets : b.targetFrames b.address = [] := by simp [Body.targetFrames, hempty]
  rw [h.finished.frames, htargets, Frame.table?_eq, if_pos rfl, ite_self]

theorem Built.intact_of_no_labels (hlabels : .newLabel ∉ calls) {first : Call} {rest : List Call}
    (hcalls : calls = first :: rest) (hfirst : first.isMark = false) (hext : b.pool.Extends later) :
    code.Intact later := by
  have hframes := h.frames_eq_none hlabels
  obtain ⟨_, i, -, hi, -⟩ := h.instruction (show calls = [] ++ first :: rest from hcalls) hfirst
  refine ⟨⟨?_, by simp [hframes]⟩, ?_, h.refers hext, by simp [hframes]⟩
  · rw [h.length_code]
    exact h.finished.size_le
  · intro hnil
    rw [hnil] at hi
    cases hi

end Built

variable {program : Program} {className : String} {options : Options} {c : ClassFile} {s : Session} {a : Artifact}
  {code : MethodCode}

theorem Made.intact (h : Made program className options c s code a) : code.Intact a.classFile.pool := by
  obtain ⟨arguments, hopened, hcompiled⟩ := h.compiled.opened
  obtain ⟨hparts, hext, -⟩ := h.parts
  have built := hcompiled.built hopened.wellFormed h.finish
  have hsize := hcompiled.size_le built.finished
  have hentry : ∀ t ∈ [VerificationType.object arguments], t.Named c.pool := by
    simpa [VerificationType.Named] using ⟨_, hopened.arguments⟩
  have named := hcompiled.performs.named (Body.named_start ⟨_, hopened.thisClass⟩ hentry options.frames)
  refine ⟨h.short, ?_, built.refers hext, ?_⟩
  · intro hnil
    have hlast := built.last hcompiled.reachable
    rw [hnil] at hlast
    cases hlast
  · intro entries hentries
    rw [built.finished.frames] at hentries
    split at hentries
    · have htargets := hcompiled.size_ge (.inl rfl)
      -- Each label that has a frame costs a branch of three bytes, so the number of frames fits.
      have hcount := s.body.length_targetFrames_le s.body.address
      refine ⟨Frame.readEntries?_tableBytes hentries (by omega)
        (fun f hf => hcompiled.frame_fits hsize built.finished built.length_code hf), ?_⟩
      intro e he t ht
      obtain ⟨r, hr, ht⟩ := Frame.types_table? hentries he ht
      exact (named.targetFrames hr t ht).mono hext
    · cases hentries

end Artifact

/-! ## The members of a class -/

def ClassFile.signature? (k : ClassFile) (m : Member) : Option (String × String) := do
  return (← k.pool.text? m.name, ← k.pool.text? m.descriptor)

namespace Artifact

theorem IsMethodWith.signature? {k : ClassFile} {m : Member} {access : UInt16} {name descriptor : String}
    (h : IsMethodWith k.pool m access name descriptor code) : k.signature? m = some (name, descriptor) := by
  obtain ⟨hname, hdescriptor, -⟩ := h.text?
  rw [ClassFile.signature?, hname, hdescriptor]
  rfl

theorem Made.methods (h : Made program className options c s code a) :
    a.classFile.methods.map a.classFile.signature? = [some ("<init>", "()V"), some ("main", mainDescriptor)] ++
      (if s.readsInput then [some ("<clinit>", "()V")] else []) ∧
    ∀ m ∈ a.classFile.methods, ∃ access name descriptor code,
      IsMethodWith a.classFile.pool m access name descriptor code ∧ code.Intact a.classFile.pool := by
  obtain ⟨init, main, others, hmethods, ⟨_, b, initCode, hbuilt, hext, hinit⟩, hmain, hconsole⟩ := h.parts.1.methods
  have hconstructor := hbuilt.intact_of_no_labels (by simp [constructorCalls]) rfl rfl hext
  rw [hmethods]
  unfold HasConsole at hconsole
  split at hconsole
  · next hreads =>
    obtain ⟨_, _, m, -, -, -, rfl, _, b, clinitCode, hbuilt, hext, hm⟩ := hconsole
    have hinitializer := hbuilt.intact_of_no_labels (by simp [consoleCalls]) rfl rfl hext
    refine ⟨by simp [hreads, hinit.signature?, hmain.signature?, hm.signature?], ?_⟩
    simp only [List.forall_mem_cons, List.not_mem_nil, false_imp_iff, implies_true, and_true]
    exact ⟨⟨_, _, _, _, hinit, hconstructor⟩, ⟨_, _, _, _, hmain, h.intact⟩, _, _, _, _, hm, hinitializer⟩
  · next hreads =>
    obtain ⟨-, rfl⟩ := hconsole
    refine ⟨by simp [hreads, hinit.signature?, hmain.signature?], ?_⟩
    simp only [List.forall_mem_cons, List.not_mem_nil, false_imp_iff, implies_true, and_true]
    exact ⟨⟨_, _, _, _, hinit, hconstructor⟩, _, _, _, _, hmain, h.intact⟩

theorem Made.fields (h : Made program className options c s code a) :
    a.classFile.fields.map a.classFile.signature? =
      (if s.readsInput then [some ("stdin", "Ljava/util/Scanner;")] else []) ∧
    ∀ f ∈ a.classFile.fields, ∃ access n d name descriptor, f = Member.make access n d [] ∧
      a.classFile.pool.IsText n name ∧ a.classFile.pool.IsText d descriptor := by
  obtain ⟨_, _, _, -, -, -, hconsole⟩ := h.parts.1.methods
  unfold HasConsole at hconsole
  split at hconsole
  · next hreads =>
    obtain ⟨n, d, _, hfields, hn, hd, -⟩ := hconsole
    rw [hfields]
    refine ⟨?_, by simpa using ⟨_, n, d, rfl, ⟨_, hn⟩, _, hd⟩⟩
    simp [hreads, ClassFile.signature?, Member.make, hn.text?, hd.text?, Library.console]
  · next hreads =>
    rw [hconsole.1]
    exact ⟨by simp [hreads], by simp⟩

theorem Made.attributes (h : Made program className options c s code a) : a.classFile.attributes.length ≤ 1 ∧
    ∀ x ∈ a.classFile.attributes, ∃ n i file, x = .make n (Bytes.ofUInt16 i) ∧
      a.classFile.pool.IsText n "SourceFile" ∧ a.classFile.pool.IsText i file := by
  have hsource := h.parts.1.source
  unfold HasSource at hsource
  split at hsource
  · rw [hsource]
    exact ⟨Nat.zero_le _, nofun⟩
  · next file _ =>
    obtain ⟨n, i, hattributes, hn, hi⟩ := hsource
    rw [hattributes]
    exact ⟨Nat.le_refl _, by simpa using ⟨n, i, rfl, hn, file, hi⟩⟩

end Artifact

/-- The stored counts of a class that has been synchronized are those that it has, if they fit. -/
theorem ClassFile.stored_of_sync {k : ClassFile} (synced : k.sync = k) (wf : k.pool.WellFormed)
    (fit : k.interfaces.length < 65536 ∧ k.fields.length < 65536 ∧ k.methods.length < 65536 ∧
      k.attributes.length < 65536)
    (members : ∀ m ∈ k.fields ++ k.methods, m.Stored) (attributes : ∀ a ∈ k.attributes, a.Stored) : k.Stored := by
  have hcount : ∀ {n : Nat}, n < 65536 → n.toUInt16.toNat = n := fun h => Nat.mod_eq_of_lt h
  have hconstants : ∀ c ∈ k.pool.constants.entries.toList, c.Stored := by
    intro c hc
    have hsupports := wf.supports c hc
    cases c with
    | utf8 bytes => exact hsupports
    | _ => trivial
  have hsize : k.pool.sizeField.toNat = k.pool.constants.entries.size + 1 := by
    rw [wf.sizeField_eq, ConstantPool.list, Array.length_toList]
  rw [List.forall_mem_append] at members
  refine ⟨⟨by omega, hconstants, ?_, ?_, members.1, ?_, members.2, ?_, attributes⟩, hsize⟩
  · rw [← synced]; exact hcount fit.1
  · rw [← synced]; exact hcount fit.2.1
  · rw [← synced]; exact hcount fit.2.2.1
  · rw [← synced]; exact hcount fit.2.2.2

namespace Artifact

theorem Made.stored (h : Made program className options c s code a) : a.classFile.Stored := by
  obtain ⟨hnames, hmethods⟩ := h.methods
  obtain ⟨hfieldNames, hfields⟩ := h.fields
  obtain ⟨hcount, hattributes⟩ := h.attributes
  have hmethodsCount := congrArg List.length hnames
  have hfieldsCount := congrArg List.length hfieldNames
  rw [List.length_map] at hmethodsCount hfieldsCount
  refine ClassFile.stored_of_sync h.parts.1.synced h.parts.1.wellFormed ⟨?_, ?_, ?_, ?_⟩ ?_ ?_
  · rw [h.parts.1.interfaces]
    decide
  · rw [hfieldsCount]
    split <;> decide
  · rw [hmethodsCount]
    split <;> decide
  · omega
  · intro m hm
    rcases List.mem_append.1 hm with hm | hm
    · obtain ⟨_, _, _, _, _, rfl, -⟩ := hfields m hm
      exact ⟨rfl, nofun⟩
    · obtain ⟨_, _, _, _, hmethod, hintact⟩ := hmethods m hm
      exact hmethod.stored hintact.short
  · intro x hx
    obtain ⟨n, i, _, rfl, -⟩ := hattributes x hx
    exact Attribute.stored_make n (by simp [UInt32.size])

end Artifact

/-! ## Whole classes -/

structure Code.Intact (pool : ConstantPool) (c : Code) : Prop where
  stored : c.Stored
  length : 1 ≤ c.code.length ∧ c.code.length ≤ 65535
  instructions : ∃ code, disassemble c.code = .ok code ∧ ∀ i ∈ code, i.Refers pool
  attributes : ∀ x ∈ c.attributes, ∃ name, pool.IsText x.name name
  frames : ∀ x ∈ c.attributes, pool.IsText x.name "StackMapTable" → ∃ entries, Frame.Intact pool entries x.info

/-- All indices in the class lead to constants of the right kinds. -/
structure ClassFile.Intact (k : ClassFile) : Prop where
  names : ∀ m ∈ k.fields ++ k.methods, (∃ name, k.pool.IsText m.name name) ∧
    (∃ descriptor, k.pool.IsText m.descriptor descriptor) ∧ ∀ x ∈ m.attributes, ∃ name, k.pool.IsText x.name name
  attributes : ∀ x ∈ k.attributes, ∃ name, k.pool.IsText x.name name
  code : ∀ m ∈ k.methods, ∃ c, k.codeOf? m = some c ∧ c.Intact k.pool

namespace Artifact

theorem HasTable.of_mem {pool : ConstantPool} {frames : Option (List FrameEntry)} {attributes : List Attribute}
    (h : HasTable pool frames attributes) {x : Attribute} (hx : x ∈ attributes) :
    pool.IsText x.name "StackMapTable" ∧ ∃ entries, frames = some entries ∧ x.info = Frame.tableBytes entries := by
  unfold HasTable at h
  split at h
  · subst h
    cases hx
  · next entries =>
    obtain ⟨n, rfl, hn⟩ := h
    obtain rfl := List.mem_singleton.1 hx
    exact ⟨hn, entries, rfl, rfl⟩

theorem payload_intact {pool : ConstantPool} {attributes : List Attribute} (h : code.Intact pool)
    (htable : HasTable pool code.frames attributes) : (payload code attributes).Intact pool := by
  refine ⟨payload_stored htable h.short, ⟨?_, h.short.instructions⟩,
    ⟨code.instructions, disassemble_assemble _, h.refers⟩, ?_, ?_⟩
  · obtain ⟨i, rest, hcode⟩ := List.exists_cons_of_ne_nil h.nonempty
    have hpos := i.size_pos
    simp only [payload, Code.make, length_assemble, hcode, codeSize_cons]
    omega
  · intro x hx
    exact ⟨_, (htable.of_mem hx).1⟩
  · intro x hx _
    obtain ⟨-, entries, hentries, hinfo⟩ := htable.of_mem hx
    rw [hinfo]
    exact ⟨entries, h.frames entries hentries⟩

theorem Made.classFile_intact (h : Made program className options c s code a) : a.classFile.Intact := by
  refine ⟨?_, ?_, ?_⟩
  · intro m hm
    rcases List.mem_append.1 hm with hm | hm
    · obtain ⟨_, n, d, _, _, rfl, hn, hd⟩ := h.fields.2 m hm
      exact ⟨⟨_, hn⟩, ⟨_, hd⟩, nofun⟩
    · obtain ⟨_, _, _, _, ⟨codeName, n, d, _, -, hcode, hn, hd, rfl⟩, -⟩ := h.methods.2 m hm
      exact ⟨⟨_, hn⟩, ⟨_, hd⟩, by simpa [Member.make, Attribute.make] using ⟨_, hcode⟩⟩
  · intro x hx
    obtain ⟨n, _, _, rfl, hn, -⟩ := h.attributes.2 x hx
    exact ⟨_, hn⟩
  · intro m hm
    obtain ⟨_, _, _, _, hmethod, hintact⟩ := h.methods.2 m hm
    obtain ⟨attributes, htable, hcode⟩ := hmethod.codeOf? hintact.short
    exact ⟨_, hcode, payload_intact hintact htable⟩

theorem Made.readsInput_eq (h : Made program className options c s code a) :
    s.readsInput = blockReads program.typing program.body := by
  rw [Bool.eq_iff_iff, h.compiled.readsInput, program.fullPlan_reads, h.compiled.typing]

/-- A compiled class stores its counts, has the members that the program needs and no others, and is intact. It is read
back from its bytes, and the code of `main` in it is the finished code. -/
theorem compiled_class_intact {program : Program} {className : String} {options : Options} {k : ClassFile}
    {notices : List Notice} (compiled : ofProgram program className options = .ok ⟨k, notices⟩) :
    k.Stored ∧
    k.methods.map k.signature? = [some ("<init>", "()V"), some ("main", "([Ljava/lang/String;)V")] ++
      (if blockReads program.typing program.body then [some ("<clinit>", "()V")] else []) ∧
    k.fields.map k.signature? =
      (if blockReads program.typing program.body then [some ("stdin", "Ljava/util/Scanner;")] else []) ∧
    k.pool.className? k.thisClass = some className ∧ k.pool.className? k.superClass = some "java/lang/Object" ∧
    k.Intact ∧ ClassFile.read k.bytes = .ok (k, []) ∧
    ∃ c s code stored, compileMain program className options = .ok (c, s) ∧ s.body.finish = .ok code ∧
      k.code? "main" = some stored ∧ disassemble stored.code = .ok code.instructions := by
  obtain ⟨c, s, code, made⟩ := made_of_ok compiled
  have stored := made.stored
  have hread := ClassFile.read_bytes stored.toCounted []
  rw [List.append_nil] at hread
  obtain ⟨_, attributes, -, -, -, hmain⟩ := made.main_code
  rw [← made.readsInput_eq]
  exact ⟨stored, made.methods.1, made.fields.1, made.parts.1.thisClass.className?, made.parts.1.superClass.className?,
    made.classFile_intact, hread, c, s, code, _, made.run, made.finish, hmain, disassemble_assemble _⟩

def deepRead : Program :=
  ⟨"DeepRead", some [⟨.text, "line"⟩, ⟨.integer, "n"⟩],
    [.whileDo ⟨.name "n", .less, .number 40000⟩
      [.ifElse ⟨.name "n", .equal, .number 7⟩ [.printText "seven"] [.read "line"],
       .setExpr "n" (.arithmetic .add (.name "n") (.number 100000))]]⟩

theorem compiled_class_intact_deepRead : ∃ k,
    ofProgram deepRead "DeepRead" ⟨false, .fatal, some "deep.kc"⟩ = .ok ⟨k, []⟩ ∧
    k.methods.map k.signature? =
      [some ("<init>", "()V"), some ("main", "([Ljava/lang/String;)V"), some ("<clinit>", "()V")] ∧
    k.fields.map k.signature? = [some ("stdin", "Ljava/util/Scanner;")] ∧
    ClassFile.read k.bytes = .ok (k, []) := by
  have hrun : (ofProgram deepRead "DeepRead" ⟨false, .fatal, some "deep.kc"⟩).toOption.map notices = some [] := by
    decide +kernel
  have hreads : blockReads deepRead.typing deepRead.body = true := by decide +kernel
  cases hok : ofProgram deepRead "DeepRead" ⟨false, .fatal, some "deep.kc"⟩ with
  | error failure =>
    rw [hok] at hrun
    cases hrun
  | ok a =>
    rw [hok] at hrun
    obtain ⟨k, noted⟩ := a
    obtain rfl : noted = [] := Option.some.inj hrun
    obtain ⟨-, hmethods, hfields, -, -, -, hread, -⟩ := compiled_class_intact hok
    rw [hreads] at hmethods hfields
    exact ⟨k, rfl, hmethods, hfields, hread⟩

end Artifact

end KnightCode
