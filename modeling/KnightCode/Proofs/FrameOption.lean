import KnightCode.Proofs.BodyRequests
import KnightCode.Proofs.BranchTargets

/-!
# Frames do not change the program

A class is compiled with a table of frames and without one in the same way up to the end of `main`. From there on the
pool of the class with frames may hold one text more, so the class without frames finds room for all that it asks for.
The table is there just when the code has a branch.
-/

namespace KnightCode

/-! ## The body of `main` -/

theorem Session.carryOut_framed (a : Action) (wanted : Bool) :
    Commutes (fun s => { s with body := s.body.framed wanted }) (Session.carryOut a) :=
  carryOut_commutes a id fun c => c.uses.commutes wanted

theorem Session.carryOutAll_framed (actions : List Action) (wanted : Bool) :
    Commutes (fun s => { s with body := s.body.framed wanted }) (Session.carryOutAll actions) :=
  .forM fun a _ => carryOut_framed a wanted

theorem Body.finish_framed {b : Body} {code : MethodCode} (h : b.finish = .ok code) :
    (b.framed false).finish = .ok { code with frames := none } := by
  -- Nothing that finishing looks at, but for the frames, depends on whether they are wanted.
  have hunresolved : (b.framed false).unresolved? = b.unresolved? := rfl
  have hsize : (b.framed false).finalSize = b.finalSize := rfl
  have hitems : (b.framed false).finalItems = b.finalItems := rfl
  have haddress : (b.framed false).addressOf = b.addressOf := rfl
  have hresolve : (b.framed false).resolve = b.resolve := rfl
  rw [finish_eq] at h ⊢
  rw [hunresolved, hsize, hitems, haddress, hresolve]
  cases hlabel : b.unresolved? with
  | some label =>
    rw [hlabel] at h
    cases h
  | none =>
    rw [hlabel] at h
    simp only at h ⊢
    split at h
    · cases h
    · next hfits =>
      rw [if_neg hfits]
      split at h
      · cases h
      · cases h
        rfl

theorem Call.performAll_framed (calls : List Call) (wanted : Bool) :
    Commutes (Body.framed · wanted) (Call.performAll calls) :=
  .forM fun c _ => c.uses.commutes wanted

theorem Performs.finish_eq_ok {calls : List Call} {pool : ConstantPool} {thisClass : UInt16}
    {entry : List VerificationType} {frames : Bool} {b : Body} (wf : pool.WellFormed)
    (h : Performs calls (.start pool thisClass entry frames) b)
    (hlabels : ∀ c ∈ calls, c ≠ .newLabel ∧ c.label? = none) (hshort : 4 * calls.length < 65535) :
    ∃ code, b.finish = .ok code := by
  obtain ⟨items, hlaid, hitems, hsize⟩ := h.adds wf
  have htoList : b.items.toList = items := by simp [hitems, Body.start]
  have hcount : items.length ≤ calls.length := by
    rw [hlaid.length_eq]
    exact List.countP_le_length
  have hfinal : b.finalSize ≤ 65535 := by
    have hcode := codeSize_le (items.map Item.instruction)
    rw [List.length_map] at hcode
    have hstart : (Body.start pool thisClass entry frames).size = 0 := rfl
    unfold Body.finalSize
    split <;> omega
  have hnone : b.labels = #[] := by
    apply Array.eq_empty_of_size_eq_zero
    rw [h.labels_size, List.count_eq_zero_of_not_mem fun hmem => (hlabels _ hmem).1 rfl]
    rfl
  have hending := b.finish_ending
  cases hfinish : b.finish with
  | ok code => exact ⟨code, rfl⟩
  | error fault =>
    rw [hfinish] at hending
    cases hending with
    | unresolved hlabel => simp [Body.unresolved?, hnone] at hlabel
    | tooLarge _ hlarge => exact absurd hfinal (Nat.not_le.2 hlarge)
    | @refused k item _ _ _ hk hfault =>
      -- An item that cannot be resolved is a branch, and no call here has a label to go to.
      have hplain : item.label? = none := by
        rcases Body.mem_finalItems (List.mem_of_getElem? hk) with hitem | rfl
        · rw [htoList] at hitem
          obtain ⟨call, hcall, hemits⟩ := hlaid.exists_call hitem
          cases hlabel : item.label? with
          | none => rfl
          | some label =>
            have := hemits.label?_eq hlabel
            rw [(hlabels call hcall).2] at this
            cases this
        · rfl
      simp only [Body.resolve, hplain] at hfault
      cases hfault

theorem Performs.exists_effect {calls : List Call} {b b' : Body} {call : Call} (wf : b.pool.WellFormed)
    (h : Performs calls b b') (hcall : call ∈ calls) :
    ∃ m m', call.Effect m m' ∧ m'.pool.Extends b'.pool := by
  induction h with
  | nil b => cases hcall
  | @cons first calls b m b' heffect hrest ih =>
    have hwf := (heffect.continues wf).wellFormed
    rcases List.mem_cons.1 hcall with rfl | hcall
    · exact ⟨b, m, heffect, (hrest.continues hwf).pool.1⟩
    · exact ih hwf hcall

namespace Artifact

variable {program : Program} {className : String} {arguments : UInt16} {c c' : ClassFile} {code : MethodCode}

/-! ## The start of a class -/

theorem request_commutes {α : Type} (r : Interning α) (major : UInt16) :
    Commutes (fun c => { c with major }) (request r) := by
  intro c
  unfold request
  simp only
  cases r c.pool <;> rfl

theorem addMethod_commutes (access : UInt16) (name descriptor : String) (code : MethodCode) (major : UInt16) :
    Commutes (fun c => { c with major }) (addMethod access name descriptor code) := by
  have hattach : ∀ attributes : List Attribute, Commutes (fun c : ClassFile => { c with major }) (do
      let payload := Code.make code.maxStack code.maxLocals (assemble code.instructions) [] attributes
      let codeName ← request (ConstantPool.utf8 "Code")
      let name ← request (ConstantPool.utf8 name)
      let descriptor ← request (ConstantPool.utf8 descriptor)
      let method := Member.make access name descriptor [.make codeName payload.bytes]
      modify fun c => { c with methods := c.methods ++ [method] }) := by
    intro attributes
    refine .bind (request_commutes _ _) fun codeName => .bind (request_commutes _ _) fun name => ?_
    exact .bind (request_commutes _ _) fun descriptor => .of_modify fun _ => rfl
  unfold addMethod
  cases code.frames with
  | none => exact hattach []
  | some entries => exact .bind (request_commutes _ _) fun tableName => hattach _

theorem buildCode_unframed {entry : List VerificationType} {calls : List Call} (wf : c.pool.WellFormed)
    (hlabels : .newLabel ∉ calls) (h : buildCode entry true calls c = .ok code c') (major : UInt16) :
    buildCode entry false calls { c with major } = .ok code { c' with major } := by
  have hrun : Call.performAll calls (.start c.pool c.thisClass entry false) = withState (Body.framed · false)
      (Call.performAll calls (.start c.pool c.thisClass entry true)) :=
    Call.performAll_framed calls false (.start c.pool c.thisClass entry true)
  unfold buildCode at h ⊢
  simp only [hrun]
  cases hcalls : Call.performAll calls (.start c.pool c.thisClass entry true) with
  | error fault b =>
    rw [hcalls] at h
    cases h
  | ok _ b =>
    rw [hcalls] at h
    simp only at h
    cases hfinish : b.finish with
    | error fault =>
      rw [hfinish] at h
      cases h
    | ok code =>
      rw [hfinish] at h
      cases h
      have built : Built c.pool c.thisClass entry true calls b code := ⟨wf, performs_of_ok wf hcalls, hfinish⟩
      have hnone := built.frames_eq_none hlabels
      have hsame : ({ code with frames := none } : MethodCode) = code := by rw [← hnone]
      simp only [withState, Body.finish_framed hfinish, hsame]
      rfl

theorem addConstructor_unframed (wf : c.pool.WellFormed) (h : addConstructor true c = .ok () c') (major : UInt16) :
    addConstructor false { c with major } = .ok () { c' with major } := by
  obtain ⟨code, mid, hbuild, hadd⟩ := bind_eq_ok.1 h
  have hmethod := addMethod_commutes Access.isPublic "<init>" "()V" code major mid
  rw [hadd] at hmethod
  exact bind_eq_ok.2 ⟨code, _, buildCode_unframed wf (by simp [constructorCalls]) hbuild major, hmethod⟩

theorem make_major {name superName : String} {major : UInt16} (h : ClassFile.make major name superName = .ok c)
    (other : UInt16) : ClassFile.make other name superName = .ok { c with major := other } := by
  unfold ClassFile.make at h ⊢
  simp only at h ⊢
  split at h
  · cases h
    simp_all
  · cases h

theorem opening_unframed (h : opening className true = .ok (arguments, c)) :
    opening className false = .ok (arguments, { c with major := 49 }) := by
  unfold opening at h ⊢
  cases hvalid : ClassName.isValid className with
  | false =>
    rw [hvalid] at h
    cases h
  | true =>
    rw [hvalid] at h
    simp only [Bool.not_true, Bool.false_eq_true, if_false, if_true] at h ⊢
    have hmake := make_cases 52 className objectClass
    cases hstart : ClassFile.make 52 className objectClass with
    | error e =>
      rw [hstart] at h
      cases h
    | ok c₀ =>
      rw [hstart] at h hmake
      rw [make_major hstart]
      simp only at h ⊢
      split at h
      · next arguments c hrun =>
        cases h
        obtain ⟨_, mid, hconstructor, hrequest⟩ := bind_eq_ok.1 hrun
        -- No request looks at the version, which is all that differs so far.
        have hlast := request_commutes (ConstantPool.classRef argumentsClass) 49 mid
        rw [hrequest] at hlast
        have hrun' : (do
            addConstructor false
            request (ConstantPool.classRef argumentsClass)) { c₀ with major := 49 } =
              .ok arguments { c with major := 49 } :=
          bind_eq_ok.2 ⟨(), _, addConstructor_unframed hmake.1 hconstructor 49, hlast⟩
        simp only [hrun']
        rfl
      · cases h

theorem compileMain_unframed {policy : UndeclaredPolicy} {sourceFile : Option String} {s : Session}
    (h : compileMain program className ⟨true, policy, sourceFile⟩ = .ok (c, s)) :
    compileMain program className ⟨false, policy, sourceFile⟩ =
      .ok ({ c with major := 49 }, { s with body := s.body.framed false }) := by
  rw [compileMain_planned] at h ⊢
  simp only at h ⊢
  split at h
  · cases h
  · next arguments c₀ hopening =>
    rw [opening_unframed hopening]
    have hframed := Session.carryOutAll_framed (program.fullPlan className policy).actions.toList false
      (Program.session className policy (.start c₀.pool c₀.thisClass [.object arguments] true))
    simp only at h ⊢
    split at h
    · cases h
    · next _ s hrun =>
      cases h
      rw [hrun] at hframed
      have hrun' : Session.carryOutAll (program.fullPlan className policy).actions.toList
          (Program.session className policy (.start c.pool c.thisClass [.object arguments] false)) =
            .ok () { s with body := s.body.framed false } := hframed
      rw [hrun']

/-! ## The end of a class -/

/-- On a class whose pool is within the larger one, the work succeeds, and the pool stays within it. -/
def Fills (large : ConstantPool) {α : Type} (work : Assembling α) : Prop :=
  ∀ c : ClassFile, c.pool.WellFormed → c.pool.Within large →
    ∃ a c', work c = .ok a c' ∧ c'.pool.WellFormed ∧ c'.pool.Within large

namespace Fills

variable {large : ConstantPool} {α β : Type}

theorem bind {work : Assembling α} {next : α → Assembling β} (h : Fills large work)
    (hnext : ∀ a, Fills large (next a)) : Fills large (work >>= next) := by
  intro c wf hc
  obtain ⟨a, c₁, hrun, hwf, hc₁⟩ := h c wf hc
  obtain ⟨b, c₂, hrun', hwf', hc₂⟩ := hnext a c₁ hwf hc₁
  exact ⟨b, c₂, bind_eq_ok.2 ⟨a, c₁, hrun, hrun'⟩, hwf', hc₂⟩

theorem of_modify {f : ClassFile → ClassFile} (h : ∀ c, (f c).pool = c.pool) :
    Fills large (modify f : Assembling Unit) := by
  intro c wf hc
  exact ⟨(), f c, rfl, by rw [h]; exact wf, by rw [h]; exact hc⟩

theorem text (wf' : large.WellFormed) {i : UInt16} {text : String} (h : large.IsText i text) :
    Fills large (request (ConstantPool.utf8 text)) := by
  intro c wf hc
  obtain ⟨i, later, hrun, ⟨-, hwf, -⟩, hwithin⟩ := ConstantPool.utf8_finds wf' h wf hc
  refine ⟨i, { c with pool := later }, ?_, hwf, hwithin⟩
  simp only [request, hrun]

end Fills

section Filling

variable {large : ConstantPool} (wf' : large.WellFormed)
include wf'

theorem addMethod_fills {m : Member} {access : UInt16} {name descriptor : String} {other : MethodCode}
    (h : IsMethodWith large m access name descriptor other) (hframes : code.frames = none) :
    Fills large (addMethod access name descriptor code) := by
  obtain ⟨codeName, n, d, attributes, -, hcode, hn, hd, -⟩ := h
  unfold addMethod
  simp only [hframes, pure_bind]
  refine .bind (.text wf' hcode) fun codeName => .bind (.text wf' hn) fun n => ?_
  exact .bind (.text wf' hd) fun d => .of_modify fun _ => rfl

theorem addSourceFile_fills {file : String} {attributes : List Attribute}
    (h : HasSource large (some file) attributes) : Fills large (addSourceFile file) := by
  obtain ⟨n, i, -, hn, hi⟩ := h
  exact .bind (.text wf' hn) fun n => .bind (.text wf' hi) fun i => .of_modify fun _ => rfl

end Filling

theorem console_answered {pool large : ConstantPool} {thisClass : UInt16} {frames : Bool} {b : Body}
    (h : Built pool thisClass [] frames (consoleCalls className) b code) (hext : b.pool.Extends large) :
    ∀ call ∈ consoleCalls className, ∀ r, call.Asks r → ∃ j, r.Leads large j := by
  intro call hcall r hr
  -- What the initializer of the other class asked for when it was built is still in its pool.
  obtain ⟨m, m', heffect, hlate⟩ := h.performs.exists_effect h.wellFormed hcall
  have hext := hlate.trans hext
  simp only [consoleCalls, List.mem_cons, List.not_mem_nil, or_false] at hcall
  rcases hcall with rfl | rfl | rfl | rfl | rfl
  · obtain ⟨later, i, -, hi, -, rfl⟩ := heffect
    cases hr
    exact ⟨i, ConstantPool.IsClass.mono hext hi⟩
  · exact hr.elim
  · obtain ⟨later, i, type, t, -, htype, hstands, hi, rfl⟩ := heffect
    rcases hr with rfl | ⟨type', htype', name, hname, rfl⟩
    · exact ⟨i, ConstantPool.IsField.mono hext hi⟩
    · rw [input_type] at htype htype'
      cases htype
      cases htype'
      obtain ⟨name', j, hname', -, hj⟩ := hstands
      cases hname.symm.trans hname'
      exact ⟨j, ConstantPool.IsClass.mono hext hj⟩
  · obtain ⟨later, i, count, result, S, receiver, popped, f, -, -, hi, -, -, -, hreturned⟩ := heffect
    obtain rfl := hreturned.pool_eq
    rcases hr with rfl | rfl | ⟨params, result', htype, hvoid, -⟩
    · exact ⟨i, ConstantPool.IsMethod.mono hext hi⟩
    · obtain ⟨o, n, -, ho, -⟩ := hi
      exact ⟨o, ConstantPool.IsClass.mono hext ho⟩
    · rw [newScanner_type] at htype
      cases htype
      exact absurd rfl hvoid
  · obtain ⟨later, i, S, t, -, hi, -, rfl⟩ := heffect
    cases hr
    exact ⟨i, ConstantPool.IsField.mono hext hi⟩

theorem buildConsole_fills {pool large : ConstantPool} {thisClass : UInt16} {frames : Bool} {b : Body}
    (wf' : large.WellFormed) (h : Built pool thisClass [] frames (consoleCalls className) b code)
    (hext : b.pool.Extends large) (wf : c.pool.WellFormed) (hc : c.pool.Within large) :
    ∃ code c', buildCode [] false (consoleCalls className) c = .ok code c' ∧ code.frames = none ∧
      c'.pool.WellFormed ∧ c'.pool.Within large := by
  have sound := consoleCalls_sound wf className c.thisClass false
  have huses : Uses (fun r => ∃ j, r.Leads large j) (Call.performAll (consoleCalls className)) :=
    Call.performAll_uses (console_answered h hext)
  have hyields := huses.within wf' (fun _ => id) (b := .start c.pool c.thisClass [] false) wf hc
  unfold buildCode
  cases hrun : Call.performAll (consoleCalls className) (.start c.pool c.thisClass [] false) with
  | error fault b => exact absurd (sound.yields.of_error hrun) (hyields.of_error hrun)
  | ok _ b =>
    have hperforms := performs_of_ok (b := .start c.pool c.thisClass [] false) wf hrun
    obtain ⟨code, hfinish⟩ := hperforms.finish_eq_ok wf (by simp [consoleCalls, Call.label?]) (by simp [consoleCalls])
    have built : Built c.pool c.thisClass [] false (consoleCalls className) b code := ⟨wf, hperforms, hfinish⟩
    refine ⟨code, { c with pool := b.pool }, ?_, built.frames_eq_none (by simp [consoleCalls]), hyields.of_ok hrun⟩
    simp only [hfinish]

theorem addConsole_fills {large : ConstantPool} {thisClass : UInt16} {frames : Bool} {fields methods : List Member}
    (wf' : large.WellFormed) (h : HasConsole large thisClass className frames true fields methods) :
    Fills large (addConsole className false) := by
  obtain ⟨n, d, m, -, hn, hd, -, pool, b, clinit, hbuilt, hext, hm⟩ := h
  refine .bind (.text wf' hn) fun n => .bind (.text wf' hd) fun d => .bind (.of_modify fun _ => rfl) fun _ => ?_
  intro c wf hc
  obtain ⟨code, c₁, hbuild, hnone, hwf, hc₁⟩ := buildConsole_fills wf' hbuilt hext wf hc
  obtain ⟨_, c₂, hadd, hwf', hc₂⟩ := addMethod_fills wf' hm hnone c₁ hwf hc₁
  exact ⟨_, c₂, bind_eq_ok.2 ⟨code, c₁, hbuild, hadd⟩, hwf', hc₂⟩

theorem closing_fills {policy : UndeclaredPolicy} {sourceFile : Option String} {frames readsInput : Bool}
    {other : MethodCode} {k : ClassFile} (h : HasParts className ⟨frames, policy, sourceFile⟩ other readsInput k)
    (hframes : code.frames = none) :
    Fills k.pool (closing className ⟨false, policy, sourceFile⟩ code readsInput) := by
  obtain ⟨init, main, others, -, -, hmain, hconsole⟩ := h.methods
  have hsource := h.source
  rw [closing_eq]
  refine .bind (addMethod_fills h.wellFormed hmain hframes) fun _ => .bind ?_ fun _ => .bind ?_ fun _ => ?_
  · cases readsInput with
    | true => exact addConsole_fills h.wellFormed hconsole
    | false => exact fun c wf hc => ⟨(), c, rfl, wf, hc⟩
  · cases sourceFile with
    | some file => exact addSourceFile_fills h.wellFormed hsource
    | none => exact fun c wf hc => ⟨(), c, rfl, wf, hc⟩
  · intro c wf hc
    have hpool : c.sync.pool = c.pool := sync_pool wf
    exact ⟨(), c.sync, rfl, by rw [hpool]; exact wf, by rw [hpool]; exact hc⟩

theorem notices_of_ok {options : Options} {s : Session} {a : Artifact}
    (hrun : compileMain program className options = .ok (c, s)) (h : ofProgram program className options = .ok a) :
    a.notices = s.notices.toList := by
  unfold ofProgram at h
  rw [hrun] at h
  simp only at h
  split at h
  · cases h
  · split at h
    · cases h
      rfl
    · cases h

theorem ofProgram_unframed {policy : UndeclaredPolicy} {sourceFile : Option String} {s : Session} {a : Artifact}
    (made : Made program className ⟨true, policy, sourceFile⟩ c s code a) :
    ∃ k, ofProgram program className ⟨false, policy, sourceFile⟩ = .ok ⟨k, s.notices.toList⟩ := by
  obtain ⟨hparts, hext, -⟩ := made.parts
  -- The pool that is wanted here is within one that did not overflow, though it may be filled in another order.
  have hfills : Fills a.classFile.pool
      (closing className ⟨false, policy, sourceFile⟩ { code with frames := none } s.readsInput) :=
    closing_fills hparts rfl
  obtain ⟨_, k, hclosing, -⟩ := hfills { c with major := 49, pool := s.body.pool } made.compiled.grows.2 (.of_extends hext)
  refine ⟨k, ?_⟩
  unfold ofProgram
  rw [compileMain_unframed made.run]
  simp only [Body.finish_framed made.finish]
  have hpool : (s.body.framed false).pool = s.body.pool := rfl
  simp only [hpool, hclosing]

end Artifact

/-! ## Methods with frames -/

def ClassFile.HasFrames (k : ClassFile) (m : Member) : Prop :=
  ∃ c, k.codeOf? m = some c ∧ ∃ x ∈ c.attributes, k.pool.text? x.name = some "StackMapTable"

namespace Artifact

theorem IsMethodWith.hasFrames_iff {k : ClassFile} {m : Member} {access : UInt16} {name descriptor : String}
    (h : IsMethodWith k.pool m access name descriptor code) (short : code.Short) :
    k.HasFrames m ↔ code.frames.isSome = true := by
  obtain ⟨attributes, htable, hcode⟩ := h.codeOf? short
  constructor
  · rintro ⟨c, hc, x, hx, -⟩
    rw [hcode] at hc
    cases hc
    obtain ⟨-, entries, hentries, -⟩ := htable.of_mem hx
    rw [hentries]
    rfl
  · intro hsome
    obtain ⟨entries, hentries⟩ := Option.isSome_iff_exists.1 hsome
    rw [hentries] at htable
    obtain ⟨n, rfl, hn⟩ := htable
    exact ⟨_, hcode, _, List.mem_singleton.2 rfl, hn.text?⟩

theorem HasMethod.not_hasFrames {k : ClassFile} {thisClass : UInt16} {m : Member} {access : UInt16}
    {name descriptor : String} {entry : List VerificationType} {frames : Bool} {first : Call} {calls : List Call}
    (h : HasMethod k.pool thisClass m access name descriptor entry frames (first :: calls))
    (hlabels : .newLabel ∉ first :: calls) (hfirst : first.isMark = false) :
    ¬k.HasFrames m ∧ k.pool.text? m.name = some name := by
  obtain ⟨pool, b, code, hbuilt, hext, hm⟩ := h
  have hshort := (hbuilt.intact_of_no_labels hlabels rfl hfirst hext).short
  rw [hm.hasFrames_iff hshort, hbuilt.frames_eq_none hlabels]
  exact ⟨by simp, hm.text?.1⟩

theorem Made.hasFrames_iff {options : Options} {s : Session} {a : Artifact}
    (h : Made program className options c s code a) : ∀ m ∈ a.classFile.methods,
      (a.classFile.HasFrames m ↔ a.classFile.pool.text? m.name = some "main" ∧ code.frames.isSome = true) := by
  -- The other methods have no labels, and other names.
  have hother : ∀ {m name}, ¬a.classFile.HasFrames m ∧ a.classFile.pool.text? m.name = some name → name ≠ "main" →
      (a.classFile.HasFrames m ↔ a.classFile.pool.text? m.name = some "main" ∧ code.frames.isSome = true) := by
    rintro m name ⟨hnone, hname⟩ hne
    simp [hnone, hname, hne]
  obtain ⟨init, main, others, hmethods, hinit, hmain, hconsole⟩ := h.parts.1.methods
  have hfirst := hother (hinit.not_hasFrames (by simp) rfl) (by decide)
  have hsecond : a.classFile.HasFrames main ↔
      a.classFile.pool.text? main.name = some "main" ∧ code.frames.isSome = true := by
    rw [hmain.hasFrames_iff h.short, hmain.text?.1]
    simp
  rw [hmethods]
  intro m hm
  rcases List.mem_cons.1 hm with rfl | hm
  · exact hfirst
  · rcases List.mem_cons.1 hm with rfl | hm
    · exact hsecond
    · unfold HasConsole at hconsole
      split at hconsole
      · obtain ⟨_, _, clinit, -, -, -, rfl, hclinit⟩ := hconsole
        obtain rfl := List.mem_singleton.1 hm
        exact hother (hclinit.not_hasFrames (by simp) rfl) (by decide)
      · rw [hconsole.2] at hm
        cases hm

/-- A program that compiles with frames compiles without them, with the same notices and the same `main`. Without frames
no method has a table of them; with frames only `main` has one, and only if there is a branch in it. -/
theorem frames_do_not_change_program {policy : UndeclaredPolicy} {sourceFile : Option String} {a : Artifact}
    (compiled : ofProgram program className ⟨true, policy, sourceFile⟩ = .ok a) :
    ∃ b framed plain instructions,
      ofProgram program className ⟨false, policy, sourceFile⟩ = .ok b ∧ b.notices = a.notices ∧
      a.classFile.code? "main" = some framed ∧ b.classFile.code? "main" = some plain ∧
      plain.code = framed.code ∧ plain.maxStack = framed.maxStack ∧ plain.maxLocals = framed.maxLocals ∧
      disassemble framed.code = .ok instructions ∧ (∀ m ∈ b.classFile.methods, ¬b.classFile.HasFrames m) ∧
      ∀ m ∈ a.classFile.methods, a.classFile.HasFrames m ↔
        a.classFile.pool.text? m.name = some "main" ∧ ∃ i ∈ instructions, i.isBranch = true := by
  obtain ⟨c, s, code, made⟩ := made_of_ok compiled
  obtain ⟨k, hplain⟩ := ofProgram_unframed made
  obtain ⟨c', s', code', made'⟩ := made_of_ok hplain
  -- the second run stopped where the first one did, but for the frames
  have hrun := (compileMain_unframed made.run).symm.trans made'.run
  cases hrun
  have hfinish := (Body.finish_framed made.finish).symm.trans made'.finish
  cases hfinish
  obtain ⟨arguments, hopened, hcompiled⟩ := made.compiled.opened
  have built := hcompiled.built hopened.wellFormed made.finish
  obtain ⟨_, attributes, -, -, -, hmain⟩ := made.main_code
  obtain ⟨_, attributes', -, -, -, hmain'⟩ := made'.main_code
  refine ⟨⟨k, s.notices.toList⟩, _, _, code.instructions, hplain, (notices_of_ok made.run compiled).symm, hmain, hmain',
    rfl, rfl, rfl, disassemble_assemble _, ?_, ?_⟩
  · intro m hm hframes
    obtain ⟨-, hsome⟩ := (made'.hasFrames_iff m hm).1 hframes
    cases hsome
  · intro m hm
    rw [made.hasFrames_iff m hm, built.isSome_frames_iff]

def atLeastSeven : Program :=
  ⟨"P", some [⟨.integer, "n"⟩], [.ifElse ⟨.name "n", .less, .number 7⟩ [.setExpr "n" (.number 7)] []]⟩

/-- The file has the name of the table, so both pools end with the same texts in another order. -/
theorem frames_do_not_change_program_atLeastSeven : ∃ a b framed plain instructions,
    ofProgram atLeastSeven "P" ⟨true, .report, some "StackMapTable"⟩ = .ok a ∧
    ofProgram atLeastSeven "P" ⟨false, .report, some "StackMapTable"⟩ = .ok b ∧
    b.notices = a.notices ∧ a.classFile.code? "main" = some framed ∧ b.classFile.code? "main" = some plain ∧
    plain.code = framed.code ∧ plain.maxStack = framed.maxStack ∧ plain.maxLocals = framed.maxLocals ∧
    disassemble framed.code = .ok instructions ∧ (∀ m ∈ b.classFile.methods, ¬b.classFile.HasFrames m) ∧
    ∀ m ∈ a.classFile.methods, a.classFile.HasFrames m ↔
      a.classFile.pool.text? m.name = some "main" ∧ ∃ i ∈ instructions, i.isBranch = true := by
  have hrun : (ofProgram atLeastSeven "P" ⟨true, .report, some "StackMapTable"⟩).isOk = true := by decide +kernel
  cases hok : ofProgram atLeastSeven "P" ⟨true, .report, some "StackMapTable"⟩ with
  | error failure =>
    rw [hok] at hrun
    cases hrun
  | ok a =>
    obtain ⟨b, framed, plain, instructions, hplain, hrest⟩ := frames_do_not_change_program hok
    exact ⟨a, b, framed, plain, instructions, rfl, hplain, hrest⟩

end Artifact

end KnightCode
