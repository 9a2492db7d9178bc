import KnightCode.Proofs.Verification

/-!
# Well-typed programs pass the verifier

The frames that are read from the class are those of the labels that branches go to, and with them the verifier accepts
the code of `main`.
-/

namespace KnightCode

/-! ## The end of a typed run -/

theorem TypedRun.settled {L : Types} {calls : List Call} {m b : Body} (h : TypedRun L calls m b) : b.Settled L := by
  induction h with
  | nil settled => exact settled
  | cons _ _ _ _ ih => exact ih

theorem TypedRun.ordered {L : Types} {calls : List Call} {m b : Body} (h : TypedRun L calls m b) (hm : m.Ordered)
    (hsize : b.size < 65536) : b.Ordered := by
  induction h with
  | nil _ => exact hm
  | cons _ typed first rest ih =>
    exact ih (first.ordered typed hm (Nat.lt_of_le_of_lt rest.performs.size_le hsize)) hsize

/-! ## The locals -/

theorem Frame.trim_eq_self {types : List VerificationType} (h : .top ∉ types) : Frame.trim types = types := by
  rw [Frame.trim, List.reverse_eq_iff]
  cases hr : types.reverse with
  | nil => rfl
  | cons t rest =>
    have ht : t ∈ types := List.mem_reverse.1 (by rw [hr]; exact .head _)
    have hne : t ≠ .top := fun heq => h (heq ▸ ht)
    rw [List.dropWhile_cons_of_neg (by simpa using hne)]

theorem VarType.Stands.ne_top {type : VarType} {pool : ConstantPool} {t : VerificationType} (h : type.Stands pool t) :
    t ≠ .top := by
  cases type with
  | integer =>
    obtain rfl := h
    exact nofun
  | text =>
    obtain ⟨i, rfl, -⟩ := h
    exact nofun

section Opened

variable {p : Program} {pool : ConstantPool} {thisClass arguments : UInt16} {frames : Bool} {mid : Body}
  (h : (Body.start pool thisClass [.object arguments] frames).Opens mid p.table.current)
include h

theorem Body.Opens.size_eq : mid.locals.size = p.table.current.length + 1 := by
  rw [h.size, Nat.add_comm]
  rfl

/-- All locals are in use when the statements begin: the arguments, then the variables. -/
theorem Body.Opens.top_not_mem : .top ∉ mid.locals.toList := by
  intro htop
  obtain ⟨j, hj⟩ := List.getElem?_of_mem htop
  rw [Array.getElem?_toList] at hj
  -- The first local variable is the argument; each other one belongs to a variable with its type.
  cases j with
  | zero =>
    rw [h.kept 0 Nat.zero_lt_one] at hj
    cases hj
  | succ i =>
    obtain ⟨hlt, -⟩ := Array.getElem?_eq_some_iff.1 hj
    have hsize := h.size_eq
    have hv : p.table.current[i]? = some p.table.current[i] := List.getElem?_eq_getElem (by omega)
    obtain ⟨t, ht, hstands⟩ := h.holds _ (List.mem_of_getElem? hv)
    rw [p.flat_table.slots i _ hv, hj] at ht
    cases ht
    exact hstands.ne_top rfl

end Opened

/-! ## The code of a program -/

def Body.verifier (b : Body) (pool : ConstantPool) : Verifier :=
  ⟨pool, b.maxStack.toNat, b.maxLocals.toNat,
    (Frame.toStore (b.targetFrames b.address)).map (Frame.resolved pool.known)⟩

theorem Body.meets_start (pool : ConstantPool) (thisClass : UInt16) (entry : List VerificationType) (frames : Bool) :
    (Body.start pool thisClass entry frames).Meets where
  le := by simp [Body.start]
  here := by simp [Body.start]
  bound := by simp [Body.start]
  same := by simp [Body.start]
  referenced := by simp [Body.start]

theorem Body.ordered_start {pool : ConstantPool} {thisClass : UInt16} {entry : List VerificationType}
    (wf : pool.WellFormed) (hthis : ∃ name, pool.IsClass thisClass name) (hentry : ∀ t ∈ entry, t.Named pool)
    (frames : Bool) : (Body.start pool thisClass entry frames).Ordered := by
  have hknows : ∀ T, (Body.start pool thisClass entry frames).Knows T → T = #[] := by
    rintro T (rfl | ⟨i, l, hl, -⟩)
    · rfl
    · simp [Body.start] at hl
  refine ⟨wf, Body.meets_start pool thisClass entry frames, Body.named_start hthis hentry frames, ?_, ?_⟩
  · intro T hT
    rw [hknows T hT]
    exact Nat.le_refl _
  · intro T hT
    rw [hknows T hT]
    exact Nat.zero_le _

namespace Program.Compiled

variable {p : Program} {className : String} {pool : ConstantPool} {thisClass arguments : UInt16} {frames : Bool}
  {body : Body} (h : p.Compiled className (.start pool thisClass [.object arguments] frames) body)
include h

theorem locals_le : p.table.current.length + 1 ≤ body.maxLocals.toNat := by
  -- The last variable has the greatest slot.
  cases hvars : p.table.current.getLast? with
  | none =>
    rw [List.getLast?_eq_none_iff.1 hvars]
    exact h.performs.maxLocals_le
  | some v =>
    have hmem := List.mem_of_getLast? hvars
    have hstore : .store v.slot v.type.kind ∈ p.calls className := by
      refine List.mem_append_left _ (List.mem_flatMap.2 ⟨v, hmem, ?_⟩)
      rw [defaultCalls_eq]
      exact .tail _ (.head _)
    have hlt := h.performs.slot_lt hstore rfl (p.flat_table.slot_range hmem).2
    rw [List.getLast?_eq_getElem?] at hvars
    obtain ⟨hpos, -⟩ := List.getElem?_eq_some_iff.1 hvars
    rw [p.flat_table.slots _ v hvars] at hlt
    omega

theorem frameFits {code : MethodCode} (finished : body.Finished code) (meets : body.Meets) (deep : body.Deep)
    (later : ConstantPool) {f : TypeFrame SlotType} (hf : f ∈ (body.verifier later).frames) :
    (body.verifier later).frameFits code.instructions f = true := by
  obtain ⟨g, hg, rfl⟩ := List.mem_map.1 hf
  obtain ⟨r, hr, rfl⟩ := Frame.mem_toStore hg
  obtain ⟨i, l, q, hl, hreferenced, hq, rfl⟩ := Body.mem_targetFrames.1 hr
  obtain ⟨S, hS⟩ := meets.referenced i l hl hreferenced
  have hstack : S.size ≤ body.maxStack.toNat := deep S (.inr ⟨i, l, hl, hS⟩)
  have hlocals : (Frame.trim l.locals.toList).length ≤ body.maxLocals.toNat :=
    calc (Frame.trim l.locals.toList).length ≤ l.locals.toList.length := (Frame.trim_sublist _).length_le
      _ ≤ p.table.current.length + 1 := h.narrow.labels i l hl
      _ ≤ body.maxLocals.toNat := h.locals_le
  have haddress : body.address q ∈ addresses code.instructions := by
    have hlt : q < code.instructions.length := by
      rw [finished.length, Body.finalItems, if_pos h.reachable]
      simpa using Nat.lt_succ_of_le (meets.le i l q hl hq)
    rw [addresses_eq, ← finished.codeSize_take]
    exact List.mem_map.2 ⟨q, List.mem_range.2 hlt, rfl⟩
  simp [Verifier.frameFits, Frame.resolved, Body.verifier, hS, hstack, hlocals, haddress]

end Program.Compiled

namespace Artifact

variable {p : Program} {className : String} {c k : ClassFile} {arguments : UInt16} {frames : Bool} {body : Body}
  {code : MethodCode} (opened : Opened className frames arguments c)
  (h : p.Compiled className (.start c.pool c.thisClass [.object arguments] frames) body)
  (hext : body.pool.Extends k.pool)
include opened

theorem Opened.entry_named : ∀ t ∈ [VerificationType.object arguments], t.Named c.pool := by
  intro t ht
  obtain rfl := List.mem_singleton.1 ht
  exact ⟨_, opened.arguments⟩

include h hext

theorem known_arguments :
    [SlotType.object argumentsClass] = (Frame.trim body.entryLocals.toList).map k.pool.known := by
  have continues := h.performs.continues opened.wellFormed
  rw [continues.entryLocals, ← (opened.arguments.mono (continues.pool.1.trans hext)).known]
  rfl

variable (hfinish : body.finish = .ok code)
include hfinish

theorem verifier_accepts (typed : blockWellTyped p.find.typing p.body = true) :
    (body.verifier k.pool).accepts [.object argumentsClass] code.instructions = true := by
  obtain ⟨mid, -, opens, -, hrun⟩ := h.opened
  have run := hrun typed
  have finished := (h.built opened.wellFormed hfinish).finished
  have hsize : body.size < 65536 := Nat.lt_of_le_of_lt (h.size_le finished) (by decide)
  have ordered := Body.ordered_start opened.wellFormed ⟨_, opened.thisClass⟩ opened.entry_named frames
  have ordered' := run.ordered ordered hsize
  have checks : (body.verifier k.pool).Checks mid.locals body code :=
    ⟨finished, ordered'.meets, run.settled, h.reachable, hext, rfl, rfl, Frame.trim_eq_self opens.top_not_mem, rfl⟩
  have hslots : ∀ c ∈ p.calls className, ∀ slot, c.slot? = some slot → slot.toNat + 1 < 65536 := by
    intro c hc slot hslot
    obtain ⟨name, v, hv, rfl⟩ := p.usesSlots className c hc slot hslot
    exact p.slot_succ hv
  have arrives : (body.verifier k.pool).Arrives (.start c.pool c.thisClass [.object arguments] frames)
      (some ⟨[.object argumentsClass], []⟩) := by
    refine ⟨fun _ => .inl ?_, nofun⟩
    rw [known_arguments opened h hext, (h.performs.continues opened.wellFormed).entryLocals]
    rfl
  have hwalk := run.walk_eq checks ordered hsize hslots arrives
  have hframes : ((body.verifier k.pool).frames.all ((body.verifier k.pool).frameFits code.instructions)) = true :=
    List.all_eq_true.2 fun f hf => h.frameFits finished ordered'.meets ordered'.deep k.pool hf
  have hroom : 1 ≤ (body.verifier k.pool).maxLocals := Nat.le_trans (Nat.le_add_left _ _) h.locals_le
  rw [Verifier.accepts, hframes]
  simp only [Bool.and_true, Bool.and_eq_true, decide_eq_true_eq]
  exact ⟨hroom, hwalk⟩

theorem frames?_eq {attributes : List Attribute} (hframes : frames = true)
    (htable : HasTable k.pool code.frames attributes) :
    k.frames? [.object argumentsClass] (payload code attributes) = some (body.verifier k.pool).frames := by
  have built := h.built opened.wellFormed hfinish
  have hrecords : code.frames = Frame.table? body.entryLocals.toList (body.targetFrames body.address) := by
    rw [built.finished.frames, (h.performs.continues opened.wellFormed).wantsFrames]
    exact if_pos hframes
  cases hentries : code.frames with
  | none =>
    rw [hentries] at htable hrecords
    obtain rfl := htable
    have hempty : body.targetFrames body.address = [] := by
      rw [Frame.table?_eq] at hrecords
      split at hrecords
      · next hempty => exact hempty
      · cases hrecords
    rw [Body.verifier, hempty, Frame.toStore_nil]
    rfl
  | some entries =>
    rw [hentries] at htable hrecords
    obtain ⟨n, rfl, hn⟩ := htable
    have hsize := h.size_le built.finished
    have hcount : (body.targetFrames body.address).length < 65536 := by
      have hle := body.length_targetFrames_le body.address
      have := h.size_ge (.inl rfl)
      omega
    have named := h.performs.named (Body.named_start ⟨_, opened.thisClass⟩ opened.entry_named frames)
    have hread := Frame.readTable?_tableBytes hrecords.symm hcount
      (fun f hf => h.frame_fits hsize built.finished built.length_code hf)
      fun f hf t ht => ((named.targetFrames hf t ht).mono hext).slotType?
    rw [ClassFile.frames?, known_arguments opened h hext]
    simp only [payload, Code.make, List.find?_cons, Attribute.make, hn.text?, decide_true]
    exact hread

omit opened h hext hfinish

theorem mainDescriptor_type :
    JavaType.ofMethodDescriptor? mainDescriptor = some ([.array (.object Body.stringClass)], .void) := by
  decide +kernel

theorem arguments_type :
    [JavaType.array (.object Body.stringClass)].mapM SlotType.ofJava? = some [.object argumentsClass] := by
  decide +kernel

/-- `main` of a well-typed program passes the verifier if the class has frames. -/
theorem main_verifies (program : Program) (className : String) (options : Options) (a : Artifact)
    (typed : program.wellTyped = true) (frames : options.frames = true)
    (compiled : ofProgram program className options = .ok a) : a.classFile.verifies "main" = true := by
  obtain ⟨c, s, code, made⟩ := made_of_ok compiled
  obtain ⟨arguments, opened, hcompiled⟩ := made.compiled.opened
  obtain ⟨-, hext, -⟩ := made.parts
  obtain ⟨main, attributes, hmethod, hmain, htable, hcode⟩ := made.main_code
  obtain ⟨-, hdescriptor, haccess⟩ := hmain.text?
  have finished := (hcompiled.built opened.wellFormed made.finish).finished
  have htyped : blockWellTyped program.find.typing program.body = true := by
    rw [made.compiled.typing]
    exact typed
  have haccepts := verifier_accepts opened hcompiled hext made.finish htyped
  have hframes := frames?_eq opened hcompiled hext made.finish frames htable
  have hverify : a.classFile.verify? "main" = some true := by
    refine Option.bind_eq_some_iff.2 ⟨main, hmethod, ?_⟩
    refine Option.bind_eq_some_iff.2 ⟨mainDescriptor, hdescriptor, ?_⟩
    refine Option.bind_eq_some_iff.2 ⟨_, mainDescriptor_type, ?_⟩
    refine Option.bind_eq_some_iff.2 ⟨_, arguments_type, ?_⟩
    refine Option.bind_eq_some_iff.2 ⟨_, hcode, ?_⟩
    refine Option.bind_eq_some_iff.2 ⟨code.instructions, congrArg _ (disassemble_assemble code.instructions), ?_⟩
    refine Option.bind_eq_some_iff.2 ⟨_, hframes, ?_⟩
    have hverifier : (⟨a.classFile.pool, (payload code attributes).maxStack.toNat,
        (payload code attributes).maxLocals.toNat, (s.body.verifier a.classFile.pool).frames⟩ : Verifier) =
        s.body.verifier a.classFile.pool := by
      rw [payload, finished.maxStack, finished.maxLocals]
      rfl
    rw [hverifier]
    simp only [haccepts, haccess]
    rfl
  rw [ClassFile.verifies, hverify]
  rfl

/-- Counts to three. What is added is the result of a comparison, which branches while there is a number on the operand
stack. -/
def countUp : Program :=
  ⟨"Count", some [⟨.integer, "n"⟩],
    [.whileDo ⟨.name "n", .less, .number 3⟩
      [.setExpr "n" (.arithmetic .add (.name "n") (.paren (.compare .less (.name "n") (.number 3))))]]⟩

theorem main_verifies_countUp :
    ∃ a, ofProgram countUp "Count" ⟨true, .fatal, none⟩ = .ok a ∧ countUp.wellTyped = true ∧
      a.classFile.verifies "main" = true := by
  have hrun : (ofProgram countUp "Count" ⟨true, .fatal, none⟩).isOk = true := by decide +kernel
  have htyped : countUp.wellTyped = true := by decide +kernel
  cases hok : ofProgram countUp "Count" ⟨true, .fatal, none⟩ with
  | error failure =>
    rw [hok] at hrun
    cases hrun
  | ok a => exact ⟨a, rfl, htyped, main_verifies countUp "Count" ⟨true, .fatal, none⟩ a htyped rfl hok⟩

end Artifact

end KnightCode
