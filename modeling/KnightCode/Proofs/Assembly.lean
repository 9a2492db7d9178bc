import KnightCode.Compile.Artifact
import KnightCode.Proofs.Prologue
import KnightCode.Proofs.Resolution

/-!
# How a class is put together

What each step that adds to a class leaves in it, and the reasons for which it can fail: the constant pool, or code that
is too long.
-/

namespace KnightCode

def Fault.IsLimit (f : Fault) : Prop := f.IsPool ∨ f.IsSize

namespace Artifact

/-! ## Methods -/

/-- The attributes of code that has these frames. -/
def HasTable (pool : ConstantPool) (frames : Option (List FrameEntry)) (attributes : List Attribute) : Prop :=
  match frames with
  | none => attributes = []
  | some entries =>
    ∃ name, attributes = [.make name (Frame.tableBytes entries)] ∧ pool.IsText name "StackMapTable"

def payload (code : MethodCode) (attributes : List Attribute) : Code :=
  .make code.maxStack code.maxLocals (assemble code.instructions) [] attributes

def IsMethodWith (pool : ConstantPool) (m : Member) (access : UInt16) (name descriptor : String) (code : MethodCode) :
    Prop :=
  ∃ codeName n d attributes, HasTable pool code.frames attributes ∧ pool.IsText codeName "Code" ∧
    pool.IsText n name ∧ pool.IsText d descriptor ∧
    m = Member.make access n d [.make codeName (payload code attributes).bytes]

theorem HasTable.mono {pool later : ConstantPool} (hext : pool.Extends later) {frames : Option (List FrameEntry)}
    {attributes : List Attribute} (h : HasTable pool frames attributes) : HasTable later frames attributes := by
  cases frames with
  | none => exact h
  | some entries =>
    obtain ⟨name, rfl, hname⟩ := h
    exact ⟨name, rfl, hname.mono hext⟩

theorem IsMethodWith.mono {pool later : ConstantPool} (hext : pool.Extends later) {m : Member} {access : UInt16}
    {name descriptor : String} {code : MethodCode} (h : IsMethodWith pool m access name descriptor code) :
    IsMethodWith later m access name descriptor code := by
  obtain ⟨codeName, n, d, attributes, htable, hcode, hn, hd, rfl⟩ := h
  exact ⟨codeName, n, d, attributes, htable.mono hext, hcode.mono hext, hn.mono hext, hd.mono hext, rfl⟩

variable {c : ClassFile}

theorem request_yields {r : Interning UInt16} {leads : ConstantPool → UInt16 → Prop} (h : ConstantPool.Answers r leads)
    (wf : c.pool.WellFormed) :
    Yields (request r) c (fun i c' => ∃ pool, c.pool.Gives leads i pool ∧ c' = { c with pool }) Fault.IsPool := by
  have hr := h c.pool wf
  unfold Yields request
  simp only
  cases run : r c.pool with
  | ok i pool => exact ⟨pool, hr.of_ok run, rfl⟩
  | error e pool => exact hr.of_error run

theorem attach_yields (access : UInt16) (name descriptor : String) (code : MethodCode) {attributes : List Attribute}
    (wf : c.pool.WellFormed) (htable : HasTable c.pool code.frames attributes) :
    Yields (do
      let payload := Code.make code.maxStack code.maxLocals (assemble code.instructions) [] attributes
      let codeName ← request (ConstantPool.utf8 "Code")
      let name ← request (ConstantPool.utf8 name)
      let descriptor ← request (ConstantPool.utf8 descriptor)
      let method := Member.make access name descriptor [.make codeName payload.bytes]
      modify fun c => { c with methods := c.methods ++ [method] }) c
      (fun _ c' => ∃ pool m, c.pool.GrowsTo pool ∧ IsMethodWith pool m access name descriptor code ∧
        c' = { c with pool, methods := c.methods ++ [m] }) Fault.IsPool := by
  refine (request_yields (ConstantPool.utf8_answers "Code") wf).bind ?_
  rintro codeName c₁ ⟨pool₁, ⟨hext₁, hwf₁, hcode⟩, rfl⟩
  refine (request_yields (ConstantPool.utf8_answers name) hwf₁).bind ?_
  rintro n c₂ ⟨pool₂, ⟨hext₂, hwf₂, hn⟩, rfl⟩
  refine (request_yields (ConstantPool.utf8_answers descriptor) hwf₂).bind ?_
  rintro d c₃ ⟨pool₃, ⟨hext₃, hwf₃, hd⟩, rfl⟩
  have hlate := hext₂.trans hext₃
  exact Yields.of_modify ⟨pool₃, _, ⟨hext₁.trans hlate, hwf₃⟩,
    ⟨codeName, n, d, attributes, htable.mono (hext₁.trans hlate), hcode.mono hlate, hn.mono hext₃, hd, rfl⟩, rfl⟩

theorem addMethod_yields (access : UInt16) (name descriptor : String) (code : MethodCode) (wf : c.pool.WellFormed) :
    Yields (addMethod access name descriptor code) c
      (fun _ c' => ∃ pool m, c.pool.GrowsTo pool ∧ IsMethodWith pool m access name descriptor code ∧
        c' = { c with pool, methods := c.methods ++ [m] }) Fault.IsPool := by
  unfold addMethod
  cases hframes : code.frames with
  | none => exact attach_yields access name descriptor code wf (by rw [hframes]; rfl)
  | some entries =>
    refine (request_yields (ConstantPool.utf8_answers "StackMapTable") wf).bind ?_
    rintro tableName c₁ ⟨pool₁, ⟨hext, hwf, htable⟩, rfl⟩
    refine (attach_yields access name descriptor code (c := { c with pool := pool₁ }) hwf
      (by rw [hframes]; exact ⟨tableName, rfl, htable⟩)).imp ?_
    rintro _ c' ⟨pool₂, m, hgrows, hm, rfl⟩
    exact ⟨pool₂, m, ⟨hext.trans hgrows.1, hgrows.2⟩, hm, rfl⟩

/-! ## Code -/

/-- The code comes from a body on which these calls were performed. -/
structure Built (pool : ConstantPool) (thisClass : UInt16) (entry : List VerificationType) (frames : Bool)
    (calls : List Call) (b : Body) (code : MethodCode) : Prop where
  wellFormed : pool.WellFormed
  performs : Performs calls (.start pool thisClass entry frames) b
  finish : b.finish = .ok code

namespace Built

variable {pool : ConstantPool} {thisClass : UInt16} {entry : List VerificationType} {frames : Bool}
  {calls done rest : List Call} {b : Body} {code : MethodCode} (h : Built pool thisClass entry frames calls b code)
include h

theorem laid : ∃ items, Laid b.pool calls items ∧ b.items.toList = items ∧ b.SizeCounted := by
  obtain ⟨items, hlaid, hitems, hsize⟩ := h.performs.adds h.wellFormed
  have htoList : b.items.toList = items := by simp [hitems, Body.start]
  refine ⟨items, hlaid, htoList, ?_⟩
  rw [Body.SizeCounted, htoList, hsize]
  simp [Body.start]

theorem finished : b.Finished code := by
  obtain ⟨-, -, -, hsize⟩ := h.laid
  exact Body.finish_eq_ok hsize h.finish

theorem instruction {call : Call} (hcalls : calls = done ++ call :: rest) (hitem : call.isMark = false) :
    ∃ item i, call.Emits b.pool item ∧ code.instructions[itemCount done]? = some i ∧
      b.Becomes (b.address (itemCount done)) item i := by
  obtain ⟨items, hlaid, hitems, -⟩ := h.laid
  rw [hcalls] at hlaid
  obtain ⟨item, hget, hemits⟩ := hlaid.get?_eq hitem
  have hfinal : b.finalItems[itemCount done]? = some item := by
    obtain ⟨hlt, -⟩ := List.getElem?_eq_some_iff.1 hget
    unfold Body.finalItems
    split
    · rw [hitems, List.getElem?_append_left hlt, hget]
    · rw [hitems, hget]
  obtain ⟨i, hi, hbecomes⟩ := h.finished.becomes _ item hfinal
  exact ⟨item, i, hemits, hi, hbecomes⟩

theorem call_of_mem {i : Instruction} (hi : i ∈ code.instructions) :
    i = .returnVoid ∨ ∃ call ∈ calls, ∃ item address, call.Emits b.pool item ∧ b.Becomes address item i := by
  obtain ⟨items, hlaid, hitems, -⟩ := h.laid
  obtain ⟨k, hk⟩ := List.getElem?_of_mem hi
  obtain ⟨hlt, -⟩ := List.getElem?_eq_some_iff.1 hk
  rw [h.finished.length] at hlt
  obtain ⟨j, hj, hbecomes⟩ := h.finished.becomes k _ (List.getElem?_eq_getElem hlt)
  obtain rfl : i = j := Option.some.inj (hk.symm.trans hj)
  rcases Body.mem_finalItems (List.getElem_mem hlt) with hmem | hreturn
  · rw [hitems] at hmem
    obtain ⟨call, hcall, hemits⟩ := hlaid.exists_call hmem
    exact .inr ⟨call, hcall, _, _, hemits, hbecomes⟩
  · -- The return at the end comes from no call.
    rw [hreturn] at hbecomes
    cases hbecomes
    exact .inl rfl

theorem last (hreach : b.reachable = true) : code.instructions[itemCount calls]? = some .returnVoid := by
  obtain ⟨items, hlaid, hitems, -⟩ := h.laid
  have hfinal : b.finalItems[itemCount calls]? = some (.plain .returnVoid) := by
    rw [Body.finalItems, if_pos hreach, hitems, ← hlaid.length_eq]
    simp
  obtain ⟨i, hi, hbecomes⟩ := h.finished.becomes _ _ hfinal
  cases hbecomes
  exact hi

theorem position? {label : Nat} (hcalls : calls = done ++ .bind label :: rest) :
    b.position? label = some (itemCount done) := by
  have hperforms := h.performs
  rw [hcalls] at hperforms
  rw [hperforms.position?_of_bind h.wellFormed]
  simp [Body.start]

end Built

/-- Calls on a new body, of which only the pool can make one fail and which go to no label that is not bound. -/
structure Sound (pool : ConstantPool) (thisClass : UInt16) (entry : List VerificationType) (frames : Bool)
    (calls : List Call) : Prop where
  yields : Yields (Call.performAll calls) (.start pool thisClass entry frames) (fun _ _ => True) Fault.IsPool
  owns : ∃ count, OwnsLabels 0 count calls

theorem finish_eq_error_of_owns {pool : ConstantPool} {thisClass : UInt16} {entry : List VerificationType}
    {frames : Bool} {calls : List Call} {b : Body} {count : Nat} (wf : pool.WellFormed)
    (h : Performs calls (.start pool thisClass entry frames) b) (owns : OwnsLabels 0 count calls) {fault : Fault}
    (hfinish : b.finish = .error fault) : fault.IsSize := by
  have hbound : ∀ i, i < count → (b.position? i).isSome := fun i hi =>
    h.isSome_position? (owns.bind_mem i (by omega) (by omega))
  have hcount : b.labels.size = count := by
    rw [h.labels_size, owns.count_newLabel]
    simp [Body.start]
  refine Body.finish_eq_error (fun i hi => hbound i (by omega)) ?_ hfinish
  -- A branch stands for a call, and the labels of calls are among those that are bound.
  intro item hitem label hlabel
  obtain ⟨items, hlaid, hitems, -⟩ := h.adds wf
  have hmem : item ∈ items := by
    rw [hitems] at hitem
    simpa [Body.start] using hitem
  obtain ⟨call, hcall, hemits⟩ := hlaid.exists_call hmem
  have hrange := owns.label_range call hcall label (hemits.label?_eq hlabel)
  exact hbound label (by omega)

theorem buildCode_yields {entry : List VerificationType} {frames : Bool} {calls : List Call} (wf : c.pool.WellFormed)
    (sound : Sound c.pool c.thisClass entry frames calls) :
    Yields (buildCode entry frames calls) c
      (fun code c' => ∃ b, Built c.pool c.thisClass entry frames calls b code ∧ c' = { c with pool := b.pool })
      Fault.IsLimit := by
  obtain ⟨count, owns⟩ := sound.owns
  unfold Yields buildCode
  simp only
  cases run : Call.performAll calls (.start c.pool c.thisClass entry frames) with
  | error fault b => exact .inl (sound.yields.of_error run)
  | ok _ b =>
    have hperforms := performs_of_ok (b := .start c.pool c.thisClass entry frames) wf run
    simp only
    cases hfinish : b.finish with
    | error fault => exact .inr (finish_eq_error_of_owns wf hperforms owns hfinish)
    | ok code => exact ⟨b, ⟨wf, hperforms, hfinish⟩, rfl⟩

/-! ## The constructor and the console -/

theorem Sound.of_safe {pool : ConstantPool} {thisClass : UInt16} {entry : List VerificationType} {frames : Bool}
    {calls : List Call} (wf : pool.WellFormed)
    (safe : Safe False (fun _ => none) #[] calls (.start pool thisClass entry frames) fun _ => True)
    (noLabels : ∀ call ∈ calls, call ≠ .newLabel ∧ call.label? = none) : Sound pool thisClass entry frames calls :=
  ⟨(safe wf False.elim).imp fun _ _ _ => trivial, 0, .none noLabels⟩

theorem superInit_type : JavaType.ofMethodDescriptor? superInit.descriptor = some ([], .void) := by decide +kernel

theorem newScanner_type :
    JavaType.ofMethodDescriptor? Library.newScanner.descriptor = some ([.object "java/io/InputStream"], .void) := by
  decide +kernel

theorem input_type :
    JavaType.ofFieldDescriptor? Library.input.descriptor = some (.object "java/io/InputStream") := by
  decide +kernel

theorem constructorCalls_sound {pool : ConstantPool} (wf : pool.WellFormed) (thisClass : UInt16) (frames : Bool) :
    Sound pool thisClass [.uninitializedThis] frames constructorCalls := by
  refine .of_safe wf ?_ (by simp [constructorCalls, Call.label?])
  refine .cons trivial False.elim ?_
  rintro m ⟨pool', t, -, -, rfl⟩ -
  refine .call ⟨0, .void, ⟨[], superInit_type, rfl⟩, .inl rfl, ?_⟩ False.elim fun _ _ _ => trivial
  simp [Body.touched, Body.pushed]

theorem consoleCalls_sound {pool : ConstantPool} (wf : pool.WellFormed) (className : String) (thisClass : UInt16)
    (frames : Bool) : Sound pool thisClass [] frames (consoleCalls className) := by
  refine .of_safe wf ?_ (by simp [consoleCalls, Call.label?])
  -- Call by call: each leaves the operand stack as deep as the next one needs it.
  refine .cons (Nat.zero_le _) False.elim ?_
  rintro m ⟨pool₁, i₁, -, -, -, rfl⟩ -
  refine .cons (by simp [Call.Ready, Body.pushed]) False.elim ?_
  rintro m ⟨S, t, hS, rfl⟩ -
  refine .cons ⟨_, input_type, .inr rfl⟩ False.elim ?_
  rintro m ⟨pool₂, i₂, type, t₂, -, -, -, -, rfl⟩ -
  refine .cons ⟨1, .void, ⟨_, newScanner_type, rfl⟩, .inl rfl, ?_⟩ False.elim ?_
  · simp [Body.pushed, Body.added]
  rintro m ⟨pool₃, i₃, count, result, S', receiver, popped, f, -, ⟨params, htype, rfl⟩, -, hsize, hS', -, hreturned⟩ -
  rw [newScanner_type] at htype
  cases htype
  refine .call ⟨by rw [Library.console_type]; rfl, ?_⟩ False.elim fun _ _ _ => trivial
  obtain ⟨-, rfl⟩ | ⟨hvoid, -⟩ := hreturned
  · have hsizes := congrArg Array.size hS'
    simp [Body.pushed, Body.added, hsize] at hsizes ⊢
    omega
  · exact absurd rfl hvoid

/-! ## The start of a class -/

def HasMethod (later : ConstantPool) (thisClass : UInt16) (m : Member) (access : UInt16) (name descriptor : String)
    (entry : List VerificationType) (frames : Bool) (calls : List Call) : Prop :=
  ∃ pool b code, Built pool thisClass entry frames calls b code ∧ b.pool.Extends later ∧
    IsMethodWith later m access name descriptor code

theorem HasMethod.mono {pool later : ConstantPool} (hext : pool.Extends later) {thisClass : UInt16} {m : Member}
    {access : UInt16} {name descriptor : String} {entry : List VerificationType} {frames : Bool} {calls : List Call}
    (h : HasMethod pool thisClass m access name descriptor entry frames calls) :
    HasMethod later thisClass m access name descriptor entry frames calls := by
  obtain ⟨start, b, code, hbuilt, hpool, hm⟩ := h
  exact ⟨start, b, code, hbuilt, hpool.trans hext, hm.mono hext⟩

theorem method_yields (access : UInt16) (name descriptor : String) {entry : List VerificationType} {frames : Bool}
    {calls : List Call} (wf : c.pool.WellFormed) (sound : Sound c.pool c.thisClass entry frames calls) :
    Yields (do
      let code ← buildCode entry frames calls
      addMethod access name descriptor code) c
      (fun _ c' => ∃ pool m, c.pool.GrowsTo pool ∧
        HasMethod pool c.thisClass m access name descriptor entry frames calls ∧
        c' = { c with pool, methods := c.methods ++ [m] }) Fault.IsLimit := by
  refine (buildCode_yields wf sound).bind ?_
  rintro code c₁ ⟨b, hbuilt, rfl⟩
  have hgrows : c.pool.GrowsTo b.pool := (hbuilt.performs.continues wf).pool
  refine (addMethod_yields access name descriptor code (c := { c with pool := b.pool }) hgrows.2).mono ?_ fun _ => .inl
  rintro _ c' ⟨pool, m, hgrows', hm, rfl⟩
  exact ⟨pool, m, hgrows.trans hgrows', ⟨c.pool, b, code, hbuilt, hgrows'.1, hm⟩, rfl⟩

/-- The class before it has its `main`. -/
structure Opened (className : String) (frames : Bool) (arguments : UInt16) (c : ClassFile) : Prop where
  valid : ClassName.isValid className = true
  wellFormed : c.pool.WellFormed
  thisClass : c.pool.IsClass c.thisClass className
  superClass : c.pool.IsClass c.superClass objectClass
  arguments : c.pool.IsClass arguments argumentsClass
  methods : ∃ m, c.methods = [m] ∧
    HasMethod c.pool c.thisClass m Access.isPublic "<init>" "()V" [.uninitializedThis] frames constructorCalls
  interfaces : c.interfaces = []
  fields : c.fields = []
  attributes : c.attributes = []

theorem make_cases (major : UInt16) (name superName : String) :
    match ClassFile.make major name superName with
    | .ok c => c.pool.WellFormed ∧ c.pool.IsClass c.thisClass name ∧ c.pool.IsClass c.superClass superName ∧
        c.methods = [] ∧ c.interfaces = [] ∧ c.fields = [] ∧ c.attributes = []
    | .error e => ConstantPool.Genuine e := by
  have hnaming : Yields (do
      let thisClass ← ConstantPool.classRef name
      let superClass ← ConstantPool.classRef superName
      return (thisClass, superClass)) ConstantPool.empty
      (fun r pool => pool.WellFormed ∧ pool.IsClass r.1 name ∧ pool.IsClass r.2 superName) ConstantPool.Genuine := by
    refine (ConstantPool.classRef_answers name _ ConstantPool.wellFormed_empty).bind ?_
    rintro thisClass pool₁ ⟨-, hwf₁, hthis⟩
    refine (ConstantPool.classRef_answers superName _ hwf₁).bind ?_
    rintro superClass pool₂ ⟨hext, hwf₂, hsuper⟩
    exact Yields.of_pure ⟨hwf₂, hthis.mono hext, hsuper⟩
  unfold Yields at hnaming
  unfold ClassFile.make
  simp only at hnaming ⊢
  split at hnaming
  · next r pool run =>
    rw [run]
    exact ⟨hnaming.1, hnaming.2.1, hnaming.2.2, rfl, rfl, rfl, rfl⟩
  · next e pool run =>
    rw [run]
    exact hnaming

def IsOpeningFault (className : String) (f : Fault) : Prop :=
  f.IsLimit ∨ (f = .code (.invalidClassName className) ∧ ClassName.isValid className = false)

theorem opening_cases (className : String) (frames : Bool) :
    match opening className frames with
    | .ok (arguments, c) => Opened className frames arguments c
    | .error f => IsOpeningFault className f := by
  unfold opening
  cases hvalid : ClassName.isValid className with
  | false => exact .inr ⟨rfl, hvalid⟩
  | true =>
    have hmake := make_cases (if frames then 52 else 49) className objectClass
    cases run : ClassFile.make (if frames then 52 else 49) className objectClass with
    | error e =>
      rw [run] at hmake
      exact .inl (.inl hmake)
    | ok c =>
      rw [run] at hmake
      obtain ⟨hwf, hthis, hsuper, hmethods, hinterfaces, hfields, hattributes⟩ := hmake
      have hwork : Yields (do
          addConstructor frames
          request (ConstantPool.classRef argumentsClass)) c (fun arguments c' => Opened className frames arguments c')
          Fault.IsLimit := by
        refine (method_yields Access.isPublic "<init>" "()V" hwf (constructorCalls_sound hwf _ frames)).bind ?_
        rintro _ c₁ ⟨pool₁, m, hgrows, hm, rfl⟩
        refine (request_yields (ConstantPool.classRef_answers argumentsClass) hgrows.2).mono ?_ fun _ => .inl
        rintro arguments c₂ ⟨pool₂, ⟨hext, hwf₂, harguments⟩, rfl⟩
        have hlate := hgrows.1.trans hext
        exact ⟨hvalid, hwf₂, hthis.mono hlate, hsuper.mono hlate, harguments, ⟨m, by simp [hmethods], hm.mono hext⟩,
          hinterfaces, hfields, hattributes⟩
      unfold Yields at hwork
      simp only [Bool.not_true, Bool.false_eq_true, if_false]
      split at hwork
      · next arguments c' hrun =>
        rw [hrun]
        exact hwork
      · next fault c' hrun =>
        rw [hrun]
        exact .inl hwork

/-! ## The end of a class -/

def HasConsole (pool : ConstantPool) (thisClass : UInt16) (className : String) (frames readsInput : Bool)
    (fields methods : List Member) : Prop :=
  if readsInput then
    ∃ n d m, fields = [Member.make (Access.isPrivate ||| Access.isStatic ||| Access.isFinal) n d []] ∧
      pool.IsText n (Library.console className).name ∧ pool.IsText d (Library.console className).descriptor ∧
      methods = [m] ∧ HasMethod pool thisClass m Access.isStatic "<clinit>" "()V" [] frames (consoleCalls className)
  else fields = [] ∧ methods = []

def HasSource (pool : ConstantPool) (sourceFile : Option String) (attributes : List Attribute) : Prop :=
  match sourceFile with
  | none => attributes = []
  | some file => ∃ n i, attributes = [.make n (Bytes.ofUInt16 i)] ∧ pool.IsText n "SourceFile" ∧ pool.IsText i file

theorem HasConsole.mono {pool later : ConstantPool} (hext : pool.Extends later) {thisClass : UInt16}
    {className : String} {frames readsInput : Bool} {fields methods : List Member}
    (h : HasConsole pool thisClass className frames readsInput fields methods) :
    HasConsole later thisClass className frames readsInput fields methods := by
  cases readsInput with
  | false => exact h
  | true =>
    obtain ⟨n, d, m, hfield, hn, hd, hmethod, hm⟩ := h
    exact ⟨n, d, m, hfield, hn.mono hext, hd.mono hext, hmethod, hm.mono hext⟩

theorem addConsole_yields (className : String) (frames : Bool) (wf : c.pool.WellFormed) :
    Yields (addConsole className frames) c
      (fun _ c' => ∃ pool fields methods, c.pool.GrowsTo pool ∧
        HasConsole pool c.thisClass className frames true fields methods ∧
        c' = { c with pool, fields := c.fields ++ fields, methods := c.methods ++ methods }) Fault.IsLimit := by
  refine ((request_yields (ConstantPool.utf8_answers _) wf).mono (fun _ _ => id) fun _ => .inl).bind ?_
  rintro n c₁ ⟨pool₁, ⟨hext₁, hwf₁, hn⟩, rfl⟩
  refine ((request_yields (ConstantPool.utf8_answers _) hwf₁).mono (fun _ _ => id) fun _ => .inl).bind ?_
  rintro d c₂ ⟨pool₂, ⟨hext₂, hwf₂, hd⟩, rfl⟩
  refine Yields.step rfl ?_
  refine (method_yields Access.isStatic "<clinit>" "()V" hwf₂ (consoleCalls_sound hwf₂ className _ frames)).imp ?_
  rintro _ c₃ ⟨pool₃, m, hgrows, hm, rfl⟩
  exact ⟨pool₃, _, _, ⟨(hext₁.trans hext₂).trans hgrows.1, hgrows.2⟩,
    ⟨n, d, m, rfl, hn.mono (hext₂.trans hgrows.1), hd.mono hgrows.1, rfl, hm⟩, rfl⟩

theorem addSourceFile_yields (file : String) (wf : c.pool.WellFormed) :
    Yields (addSourceFile file) c
      (fun _ c' => ∃ pool attributes, c.pool.GrowsTo pool ∧ HasSource pool (some file) attributes ∧
        c' = { c with pool, attributes := c.attributes ++ attributes }) Fault.IsPool := by
  refine (request_yields (ConstantPool.utf8_answers _) wf).bind ?_
  rintro n c₁ ⟨pool₁, ⟨hext₁, hwf₁, hn⟩, rfl⟩
  refine (request_yields (ConstantPool.utf8_answers _) hwf₁).bind ?_
  rintro i c₂ ⟨pool₂, ⟨hext₂, hwf₂, hi⟩, rfl⟩
  exact Yields.of_modify ⟨pool₂, _, ⟨hext₁.trans hext₂, hwf₂⟩, ⟨n, i, rfl, hn.mono hext₂, hi⟩, rfl⟩

def Closed (className : String) (options : Options) (code : MethodCode) (readsInput : Bool) (c c' : ClassFile) : Prop :=
  ∃ pool main fields methods attributes, c.pool.GrowsTo pool ∧
    IsMethodWith pool main (Access.isPublic ||| Access.isStatic) "main" mainDescriptor code ∧
    HasConsole pool c.thisClass className options.frames readsInput fields methods ∧
    HasSource pool options.sourceFile attributes ∧
    c' = ClassFile.sync { c with
      pool, fields := c.fields ++ fields, methods := c.methods ++ main :: methods
      attributes := c.attributes ++ attributes }

theorem console_yields (className : String) (frames readsInput : Bool) (wf : c.pool.WellFormed) :
    Yields (do if readsInput then addConsole className frames) c
      (fun _ c' => ∃ pool fields methods, c.pool.GrowsTo pool ∧
        HasConsole pool c.thisClass className frames readsInput fields methods ∧
        c' = { c with pool, fields := c.fields ++ fields, methods := c.methods ++ methods }) Fault.IsLimit := by
  cases readsInput with
  | true => exact addConsole_yields className frames wf
  | false => exact Yields.of_pure ⟨c.pool, [], [], .refl wf, ⟨rfl, rfl⟩, by simp⟩

theorem source_yields (sourceFile : Option String) (wf : c.pool.WellFormed) :
    Yields (do if let some file := sourceFile then addSourceFile file) c
      (fun _ c' => ∃ pool attributes, c.pool.GrowsTo pool ∧ HasSource pool sourceFile attributes ∧
        c' = { c with pool, attributes := c.attributes ++ attributes }) Fault.IsPool := by
  cases sourceFile with
  | some file => exact addSourceFile_yields file wf
  | none => exact Yields.of_pure ⟨c.pool, [], .refl wf, rfl, by simp⟩

theorem closing_eq (className : String) (options : Options) (code : MethodCode) (readsInput : Bool) :
    closing className options code readsInput = (do
      addMethod (Access.isPublic ||| Access.isStatic) "main" mainDescriptor code
      (do if readsInput then addConsole className options.frames)
      (do if let some sourceFile := options.sourceFile then addSourceFile sourceFile)
      modify ClassFile.sync) := by
  unfold closing
  cases readsInput <;> cases options.sourceFile <;> simp

theorem closing_yields (className : String) (options : Options) (code : MethodCode) (readsInput : Bool)
    (wf : c.pool.WellFormed) :
    Yields (closing className options code readsInput) c (fun _ c' => Closed className options code readsInput c c')
      Fault.IsLimit := by
  rw [closing_eq]
  refine ((addMethod_yields _ "main" mainDescriptor code wf).mono (fun _ _ => id) fun _ => .inl).bind ?_
  rintro _ c₁ ⟨pool₁, main, hgrows₁, hmain, rfl⟩
  refine (console_yields className options.frames readsInput hgrows₁.2).bind ?_
  rintro _ c₂ ⟨pool₂, fields, methods, hgrows₂, hconsole, rfl⟩
  refine ((source_yields options.sourceFile hgrows₂.2).mono (fun _ _ => id) fun _ => .inl).bind ?_
  rintro _ c₃ ⟨pool₃, attributes, hgrows₃, hsource, rfl⟩
  refine Yields.of_modify ⟨pool₃, main, fields, methods, attributes, hgrows₁.trans (hgrows₂.trans hgrows₃),
    hmain.mono (hgrows₂.1.trans hgrows₃.1), hconsole.mono hgrows₃.1, hsource, ?_⟩
  simp

end Artifact

end KnightCode
