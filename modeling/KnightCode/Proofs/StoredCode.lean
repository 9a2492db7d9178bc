import KnightCode.Proofs.Capacity
import KnightCode.Proofs.Constants
import KnightCode.Proofs.FrameTable
import KnightCode.Proofs.NamedTypes
import KnightCode.Proofs.Storage

/-!
# The code of a method in its class

The table of frames can be longer than the code, but its length always fits the four bytes that are there for it: frames
with many types are paid for with code. So what is read from the class is the code that was put into it.
-/

namespace KnightCode

/-! ## The size of the table -/

theorem Body.length_targetFrames_le (b : Body) (addressOf : Nat → Nat) :
    (b.targetFrames addressOf).length ≤ b.targets := by
  unfold Body.targetFrames Body.targets
  -- Each frame comes from a label that branches go to; one that is not bound has none.
  induction b.labels.toList with
  | nil => exact Nat.le_refl _
  | cons l labels ih =>
    rw [List.filterMap_cons, List.countP_cons]
    cases hr : l.referenced with
    | false => simpa using ih
    | true =>
      cases l.position with
      | none =>
        simp only [if_true, Option.map_none]
        omega
      | some p =>
        simp only [if_true, Option.map_some, List.length_cons]
        omega

/-- Many frames or wide frames, but not both. -/
theorem table_size_le {count width : Nat} (h : 3 * count + width ≤ 65535) :
    count * (7 + 3 * width) ≤ 3932240000 := by
  by_cases hmany : count ≤ 20000
  · calc count * (7 + 3 * width) ≤ 20000 * 196612 := Nat.mul_le_mul hmany (by omega)
      _ ≤ 3932240000 := by decide
  · calc count * (7 + 3 * width) ≤ 21845 * 16612 := Nat.mul_le_mul (by omega) (by omega)
      _ ≤ 3932240000 := by decide

/-- The code and its table can be stored together. -/
structure MethodCode.Short (code : MethodCode) : Prop where
  instructions : (assemble code.instructions).length ≤ 65535
  table : ∀ entries, code.frames = some entries → (Frame.tableBytes entries).length ≤ 3932240002

namespace Program.Compiled

variable {p : Program} {className : String} {pool : ConstantPool} {thisClass arguments : UInt16} {frames : Bool}
  {body : Body} (h : p.Compiled className (.start pool thisClass [.object arguments] frames) body)
include h

theorem frame_width (hsize : body.size ≤ 65534) {addressOf : Nat → Nat} {f : Frame}
    (hf : f ∈ body.targetFrames addressOf) : 3 * body.targets + (f.locals.length + f.stack.length) ≤ 65535 := by
  obtain ⟨i, l, -, hl, -, -, rfl⟩ := Body.mem_targetFrames.1 hf
  have hlocals : l.locals.size ≤ p.table.current.length + 1 := h.narrow.labels i l hl
  cases hS : l.stack with
  | none =>
    have := h.size_ge (.inl rfl)
    simp only [Option.getD_none, List.length_nil, Array.length_toList]
    omega
  | some S =>
    have := h.size_ge (.inr ⟨i, l, hl, hS⟩)
    simp only [Option.getD_some, Array.length_toList]
    omega

theorem frame_fits (hsize : body.size ≤ 65534) {code : MethodCode} (finished : body.Finished code)
    (hcode : (assemble code.instructions).length = body.finalSize) {f : Frame}
    (hf : f ∈ body.targetFrames body.address) : f.Fits := by
  have hwidth := h.frame_width hsize hf
  refine ⟨?_, by omega, by omega⟩
  obtain ⟨-, -, q, -, -, -, rfl⟩ := Body.mem_targetFrames.1 hf
  calc body.address q = codeSize (code.instructions.take q) := (finished.codeSize_take q).symm
    _ ≤ codeSize code.instructions := codeSize_take_le _ _
    _ = body.finalSize := by rw [← length_assemble, hcode]
    _ < 65536 := Nat.lt_succ_of_le finished.size_le

theorem built (wf : pool.WellFormed) {code : MethodCode} (hfinish : body.finish = .ok code) :
    Artifact.Built pool thisClass [.object arguments] frames (p.calls className) body code :=
  ⟨wf, h.performs, hfinish⟩

theorem size_le {code : MethodCode} (finished : body.Finished code) : body.size ≤ 65534 := by
  have hfinal := finished.size_le
  rw [Body.finalSize, if_pos h.reachable] at hfinal
  omega

theorem short {code : MethodCode} (finished : body.Finished code)
    (hcode : (assemble code.instructions).length = body.finalSize) : code.Short := by
  have hsize := h.size_le finished
  refine ⟨?_, ?_⟩
  · rw [hcode]
    exact finished.size_le
  · intro entries hentries
    rw [finished.frames] at hentries
    split at hentries
    · have htargets := h.size_ge (.inl rfl)
      have hcount := body.length_targetFrames_le body.address
      -- Bytes that pay for branches cannot pay for locals and stack: many frames are narrow ones.
      have hwidth : ∀ f ∈ body.targetFrames body.address,
          f.locals.length + f.stack.length ≤ 65535 - 3 * body.targets := by
        intro f hf
        have := h.frame_width hsize hf
        omega
      have hlength := Frame.length_tableBytes_le hentries hwidth
      have := table_size_le (show 3 * (body.targetFrames body.address).length +
        (65535 - 3 * body.targets) ≤ 65535 by omega)
      omega
    · cases hentries

end Program.Compiled

/-! ## Reading the code back -/

namespace Artifact

variable {pool : ConstantPool} {m : Member} {access : UInt16} {name descriptor : String} {code : MethodCode}

theorem Built.length_code {thisClass : UInt16} {entry : List VerificationType} {frames : Bool} {calls : List Call}
    {b : Body} (h : Built pool thisClass entry frames calls b code) :
    (assemble code.instructions).length = b.finalSize := by
  obtain ⟨-, -, -, hcounted⟩ := h.laid
  rw [length_assemble, h.finished.codeSize_eq hcounted]

theorem HasTable.stored {attributes : List Attribute} (h : HasTable pool code.frames attributes) (short : code.Short) :
    attributes.length ≤ 1 ∧ ∀ a ∈ attributes, a.Stored ∧ a.bytes.length ≤ 3932240008 := by
  unfold HasTable at h
  split at h
  · subst h
    exact ⟨Nat.zero_le _, nofun⟩
  · next entries hentries =>
    obtain ⟨n, rfl, -⟩ := h
    have hle := short.table entries hentries
    refine ⟨Nat.le_refl _, ?_⟩
    rintro a ha
    obtain rfl := List.mem_singleton.1 ha
    refine ⟨Attribute.stored_make n (Nat.lt_of_le_of_lt hle (by decide)), ?_⟩
    simp only [Attribute.bytes, Attribute.make, List.length_append, Bytes.length_ofUInt16, Bytes.length_ofUInt32]
    omega

theorem payload_stored {attributes : List Attribute} (h : HasTable pool code.frames attributes) (short : code.Short) :
    (payload code attributes).Stored := by
  obtain ⟨hcount, hstored⟩ := h.stored short
  exact Code.stored_make _ _ (Nat.lt_of_le_of_lt short.instructions (by decide)) (by omega) fun a ha => (hstored a ha).1

theorem length_payload_lt {attributes : List Attribute} (h : HasTable pool code.frames attributes)
    (short : code.Short) : (payload code attributes).bytes.length < UInt32.size := by
  obtain ⟨hcount, hstored⟩ := h.stored short
  have hattributes : (attributes.flatMap Attribute.bytes).length ≤ 3932240008 := by
    match attributes, hcount, hstored with
    | [], _, _ => exact Nat.zero_le _
    | [a], _, hstored => simpa using (hstored a (.head _)).2
  have hcode := short.instructions
  simp only [payload, Code.bytes, Code.make, List.length_append, Bytes.length_ofUInt16, Bytes.length_ofUInt32,
    List.flatMap_nil, List.length_nil]
  rw [show UInt32.size = 4294967296 from rfl]
  omega

theorem IsMethodWith.text? (h : IsMethodWith pool m access name descriptor code) :
    pool.text? m.name = some name ∧ pool.text? m.descriptor = some descriptor ∧ m.access = access := by
  obtain ⟨_, n, d, _, -, -, hn, hd, rfl⟩ := h
  exact ⟨hn.text?, hd.text?, rfl⟩

theorem IsMethodWith.stored (h : IsMethodWith pool m access name descriptor code) (short : code.Short) : m.Stored := by
  obtain ⟨codeName, n, d, attributes, htable, -, -, -, rfl⟩ := h
  refine ⟨rfl, ?_⟩
  intro a ha
  obtain rfl := List.mem_singleton.1 ha
  exact Attribute.stored_make codeName (length_payload_lt htable short)

theorem IsMethodWith.codeOf? {k : ClassFile} (h : IsMethodWith k.pool m access name descriptor code)
    (short : code.Short) :
    ∃ attributes, HasTable k.pool code.frames attributes ∧ k.codeOf? m = some (payload code attributes) := by
  obtain ⟨codeName, n, d, attributes, htable, hcode, -, -, rfl⟩ := h
  refine ⟨attributes, htable, ?_⟩
  rw [ClassFile.codeOf?, Member.make, List.find?_cons_of_pos (by simp [Attribute.make, hcode.text?]), Option.bind_some,
    Code.ofAttribute_make codeName (payload_stored htable short)]
  rfl

variable {program : Program} {className : String} {options : Options} {c : ClassFile} {s : Session} {a : Artifact}

theorem Made.short (h : Made program className options c s code a) : code.Short := by
  obtain ⟨arguments, hopened, hcompiled⟩ := h.compiled.opened
  have built := hcompiled.built hopened.wellFormed h.finish
  exact hcompiled.short built.finished built.length_code

theorem Made.main_code (h : Made program className options c s code a) :
    ∃ main attributes, a.classFile.method? "main" = some main ∧
      IsMethodWith a.classFile.pool main (Access.isPublic ||| Access.isStatic) "main" mainDescriptor code ∧
      HasTable a.classFile.pool code.frames attributes ∧
      a.classFile.code? "main" = some (payload code attributes) := by
  obtain ⟨init, main, others, hmethods, ⟨_, _, _, -, -, hinit⟩, hmain, -⟩ := h.parts.1.methods
  obtain ⟨attributes, htable, hcode⟩ := hmain.codeOf? h.short
  have hmethod : a.classFile.method? "main" = some main := by
    rw [ClassFile.method?, hmethods, List.find?_cons_of_neg, List.find?_cons_of_pos]
    · simp [hmain.text?.1]
    · simp [hinit.text?.1]
  exact ⟨main, attributes, hmethod, hmain, htable, by rw [ClassFile.code?, hmethod]; exact hcode⟩

end Artifact

end KnightCode
