import KnightCode.Proofs.Assembly
import KnightCode.Proofs.Planning

/-!
# The body of `main`

The calls on the body of `main` are those of the declarations, then those of the statements. Carrying out the plan of a
program fails only for a reason that the program gives or that the constant pool has.
-/

namespace KnightCode

namespace Program

def table (p : Program) : ScopeTable := (planDeclarations .empty (p.declarations.getD []) ⟨0, #[]⟩).1

def find (p : Program) : Lookup := p.table.lookup?

def calls (p : Program) (className : String) : List Call :=
  p.table.current.flatMap defaultCalls ++ blockCalls className p.find p.body 0

def setting (p : Program) (className : String) (policy : UndeclaredPolicy) : Setting := ⟨className, policy, p.table⟩

def fullPlan (p : Program) (className : String) (policy : UndeclaredPolicy) : Plan :=
  p.plan ⟨className, policy, .empty⟩ ⟨0, #[]⟩

/-- The actions of a program: those of the declarations, then those of the statements. -/
structure Planned (p : Program) (className : String) (policy : UndeclaredPolicy) (declaring doing : List Action) :
    Prop where
  actions : (p.fullPlan className policy).actions.toList = declaring ++ doing
  declared : ScopeTable.Declared .empty (p.declarations.getD []) p.table p.table.current declaring
  allowed : ∀ a ∈ doing, (p.setting className policy).Allows a
  calls : callsOf (declaring ++ doing) = p.calls className

theorem planned (p : Program) (className : String) (policy : UndeclaredPolicy) :
    ∃ declaring doing, p.Planned className policy declaring doing := by
  obtain ⟨new, declaring, hdeclared, hactions, hlabels⟩ :=
    ScopeTable.planDeclarations_spec (p.declarations.getD []) ScopeTable.flat_empty ⟨0, #[]⟩
  obtain ⟨doing, hdoing, hallowed⟩ :=
    Setting.leads_block p.body (p.setting className policy) _ _
      (.refl (planDeclarations .empty (p.declarations.getD []) ⟨0, #[]⟩).2)
  have hnew : p.table.current = new := hdeclared.current
  have hplan : (p.fullPlan className policy).actions.toList = declaring ++ doing := by
    rw [show p.fullPlan className policy = planBlock (p.setting className policy) p.body
      (planDeclarations .empty (p.declarations.getD []) ⟨0, #[]⟩).2 from rfl, hdoing, hactions]
    rfl
  refine ⟨declaring, doing, hplan, by rw [hnew]; exact hdeclared, hallowed, ?_⟩
  have hcalls := (planBlock_plan p.body (p.setting className policy)
    (planDeclarations .empty (p.declarations.getD []) ⟨0, #[]⟩).2).2
  have hfirst : (planDeclarations .empty (p.declarations.getD []) ⟨0, #[]⟩).2.calls = new.flatMap defaultCalls := by
    rw [Plan.calls, hactions, callsOf_append, hdeclared.calls]
    rfl
  rw [← hplan, calls, hnew]
  rw [hfirst, hlabels] at hcalls
  exact hcalls

theorem flat_table (p : Program) : p.table.Flat := by
  obtain ⟨_, _, h⟩ := p.planned "" .report
  exact h.declared.flat

theorem ownsLabels_calls (p : Program) (className : String) :
    OwnsLabels 0 (blockLabelCount p.find p.body) (p.calls className) := by
  have hdefaults : OwnsLabels 0 0 (p.table.current.flatMap defaultCalls) := by
    refine .none ?_
    intro c hc
    obtain ⟨v, -, hv⟩ := List.mem_flatMap.1 hc
    rw [defaultCalls_eq] at hv
    cases hv with
    | head => cases v.type <;> simp [pushDefault, Call.label?]
    | tail _ hv =>
      obtain rfl := List.mem_singleton.1 hv
      simp [Call.label?]
  have hall := hdefaults.append (block_ownsLabels className p.find p.body 0)
  rwa [Nat.zero_add] at hall

/-- The body of `main`, when its calls have been performed. -/
structure Compiled (p : Program) (className : String) (start body : Body) : Prop where
  opened : ∃ mid, Performs (p.table.current.flatMap defaultCalls) start mid ∧ start.Opens mid p.table.current ∧
    Performs (blockCalls className p.find p.body 0) mid body ∧
    (blockWellTyped p.find.typing p.body = true → TypedRun mid.locals (p.calls className) start body)
  reachable : body.reachable = true

theorem Compiled.performs {p : Program} {className : String} {start body : Body}
    (h : p.Compiled className start body) : Performs (p.calls className) start body := by
  obtain ⟨mid, hfirst, -, hrest, -⟩ := h.opened
  exact performs_append.2 ⟨mid, hfirst, hrest⟩

/-- Before the first statement every variable has a local variable of its type. -/
theorem steady_of_opens {p : Program} {pool : ConstantPool} {thisClass arguments : UInt16} {frames : Bool} {m : Body}
    (h : (Body.start pool thisClass [.object arguments] frames).Opens m p.table.current) :
    Steady p.find m.locals m := by
  refine ⟨rfl, ?_, ?_⟩
  · intro i l hl
    rw [h.labels] at hl
    simp [Body.start] at hl
  · intro name v hv
    exact h.holds v (p.flat_table.mem_of_lookup? hv).1

theorem compiled_yields (p : Program) (className : String) {pool : ConstantPool} (wf : pool.WellFormed)
    (thisClass arguments : UInt16) (frames : Bool) :
    Yields (Call.performAll (p.calls className)) (.start pool thisClass [.object arguments] frames)
      (fun _ body => p.Compiled className (.start pool thisClass [.object arguments] frames) body) Fault.IsPool := by
  have hslots : ∀ i v, p.table.current[i]? = some v → v.slot.toNat = 1 + i := by
    intro i v hv
    rw [p.flat_table.slots i v hv, Nat.add_comm]
  have hstart := defaults_start p.table.current (b := .start pool thisClass [.object arguments] frames) wf rfl hslots
  rw [calls, Call.performAll_append]
  refine hstart.bind ?_
  rintro _ m ⟨hfirst, hrun, hopens⟩
  have hwf := (hfirst.continues wf).wellFormed
  have hlabels : m.labels.size = 0 := by rw [hopens.labels]; rfl
  have hblock := block_safe (L := m.locals) className p.body m (id : blockWellTyped p.find.typing p.body = true → _)
    hopens.reachable
  rw [hlabels] at hblock
  refine (hblock hwf fun _ => steady_of_opens hopens).imp ?_
  rintro _ body ⟨hperforms, htyped, hreach, -⟩
  exact ⟨⟨m, hfirst, hopens, hperforms, fun ht => ((hrun rfl).2 m.locals).append (htyped ht).2⟩, hreach⟩

/-! ## Carrying out the plan -/

def session (className : String) (policy : UndeclaredPolicy) (body : Body) : Session :=
  ⟨className, policy, body, .empty, #[], false⟩

theorem compileProgram_eq (p : Program) (className : String) (policy : UndeclaredPolicy) (pool : ConstantPool)
    (thisClass : UInt16) (entry : List VerificationType) (frames : Bool) :
    Session.compileProgram p (session className policy (.start pool thisClass entry frames)) =
      Session.carryOutAll (p.fullPlan className policy).actions.toList
        (session className policy (.start pool thisClass entry frames)) :=
  Session.compileProgram_planned p _

theorem Planned.typing_eq {p : Program} {className : String} {policy : UndeclaredPolicy}
    {declaring doing : List Action} (h : p.Planned className policy declaring doing)
    (hfail : ∀ f, .fail f ∉ declaring) : p.find.typing = p.typing := by
  funext name
  exact (h.declared.types hfail name).trans rfl

theorem Planned.rescope_eq {p : Program} {className : String} {policy : UndeclaredPolicy}
    {declaring doing : List Action} (h : p.Planned className policy declaring doing) :
    ∃ t, rescope (declaring ++ doing) .empty = .ok () t := by
  obtain ⟨t, ht⟩ := Setting.rescope_of_allows h.allowed h.declared.flat fun _ => id
  have hsplit : rescope (declaring ++ doing) = (do rescope declaring; rescope doing) := List.forM_append
  exact ⟨t, by rw [hsplit]; exact bind_eq_ok.2 ⟨(), p.table, h.declared.rescope, ht⟩⟩

/-- What a plan fails with first: there are too many variables, or one is not declared and that is fatal. -/
theorem Planned.first_fail {p : Program} {className : String} {policy : UndeclaredPolicy}
    {declaring doing before after : List Action} {fault : Fault} (h : p.Planned className policy declaring doing)
    (hsplit : declaring ++ doing = before ++ .fail fault :: after) (hfirst : ∀ f, .fail f ∉ before) :
    (∃ name, fault = .code (.tooManyVariables name)) ∨
      (policy = .fatal ∧ ∃ name, fault = .undeclared name ∧ p.typing name = none) := by
  by_cases hmem : .fail fault ∈ declaring
  · exact .inl (h.declared.fail fault hmem)
  · -- Nothing fails among the declarations, so they all come before the failure.
    obtain ⟨rest, rfl, hdoing⟩ : ∃ rest, before = declaring ++ rest ∧ doing = rest ++ .fail fault :: after := by
      rcases List.append_eq_append_iff.1 hsplit with ⟨rest, hbefore, hdoing⟩ | ⟨rest, hdeclaring, hafter⟩
      · exact ⟨rest, hbefore, hdoing⟩
      · cases rest with
        | nil => exact ⟨[], by simpa using hdeclaring.symm, by simpa using hafter.symm⟩
        | cons a rest =>
          cases hafter
          exact absurd (by rw [hdeclaring]; simp) hmem
    have hdeclaring : ∀ f, .fail f ∉ declaring := fun f hf => hfirst f (List.mem_append_left _ hf)
    obtain ⟨hpolicy, name, rfl, hname⟩ := h.allowed (.fail fault) (by rw [hdoing]; simp)
    refine .inr ⟨hpolicy, name, rfl, ?_⟩
    have hname : p.find name = none := hname
    rw [← h.typing_eq hdeclaring, Lookup.typing, hname]
    rfl

end Program

namespace Artifact

variable {program : Program} {className : String} {options : Options}

/-! ## The stages of compiling -/

structure MainCompiled (program : Program) (className : String) (options : Options) (c : ClassFile) (s : Session) : Prop
    where
  opened : ∃ arguments, Opened className options.frames arguments c ∧
    program.Compiled className (.start c.pool c.thisClass [.object arguments] options.frames) s.body
  typing : program.find.typing = program.typing
  readsInput : s.readsInput = true ↔ .readsInput ∈ (program.fullPlan className options.policy).actions.toList

def IsProgramFault (program : Program) (options : Options) (f : Fault) : Prop :=
  f.IsPool ∨ (∃ name, f = .code (.tooManyVariables name)) ∨
    (options.policy = .fatal ∧ ∃ name, f = .undeclared name ∧ program.typing name = none)

theorem compileMain_planned (program : Program) (className : String) (options : Options) :
    compileMain program className options =
      match opening className options.frames with
      | .error fault => .error ⟨fault, []⟩
      | .ok (arguments, c) =>
        match Session.carryOutAll (program.fullPlan className options.policy).actions.toList
            (Program.session className options.policy
              (.start c.pool c.thisClass [.object arguments] options.frames)) with
        | .error fault s => .error ⟨fault, s.notices.toList⟩
        | .ok _ s => .ok (c, s) := by
  unfold compileMain
  cases opening className options.frames with
  | error fault => rfl
  | ok r =>
    obtain ⟨arguments, c⟩ := r
    have heq := program.compileProgram_eq className options.policy c.pool c.thisClass [.object arguments] options.frames
    dsimp only
    rw [← heq]
    rfl

theorem compileMain_cases (program : Program) (className : String) (options : Options) :
    match compileMain program className options with
    | .ok (c, s) => MainCompiled program className options c s
    | .error failure => IsOpeningFault className failure.fault ∨ IsProgramFault program options failure.fault := by
  obtain ⟨declaring, doing, planned⟩ := program.planned className options.policy
  have hopening := opening_cases className options.frames
  rw [compileMain_planned, planned.actions]
  cases ho : opening className options.frames with
  | error fault =>
    rw [ho] at hopening
    exact .inl hopening
  | ok r =>
    obtain ⟨arguments, c⟩ := r
    rw [ho] at hopening
    have hyields := program.compiled_yields className hopening.wellFormed c.thisClass arguments options.frames
    simp only
    cases hrun : Session.carryOutAll (declaring ++ doing) (Program.session className options.policy
        (.start c.pool c.thisClass [.object arguments] options.frames)) with
    | error fault s =>
      refine .inr ?_
      -- Calls fail for want of room in the pool, changes of the scope do not fail, and failures are planned.
      rcases Session.carryOutAll_eq_error hrun with ⟨b, hb⟩ | ⟨t, ht⟩ | ⟨before, after, hsplit, hfirst⟩
      · rw [planned.calls] at hb
        exact .inl (hyields.of_error hb)
      · obtain ⟨t', ht'⟩ := planned.rescope_eq
        exact absurd (ht'.symm.trans ht) nofun
      · exact .inr (planned.first_fail hsplit hfirst)
    | ok _ s =>
      obtain ⟨hcalls, -, hfail, hreads⟩ := Session.carryOutAll_eq_ok hrun
      rw [planned.calls] at hcalls
      refine ⟨⟨arguments, hopening, hyields.of_ok hcalls⟩, ?_, ?_⟩
      · exact planned.typing_eq fun f hf => hfail f (List.mem_append_left _ hf)
      · rw [planned.actions, hreads]
        simp [Program.session]

structure Made (program : Program) (className : String) (options : Options) (c : ClassFile) (s : Session)
    (code : MethodCode) (a : Artifact) : Prop where
  run : compileMain program className options = .ok (c, s)
  compiled : MainCompiled program className options c s
  finish : s.body.finish = .ok code
  closed : Closed className options code s.readsInput { c with pool := s.body.pool } a.classFile

theorem MainCompiled.grows {c : ClassFile} {s : Session} (h : MainCompiled program className options c s) :
    c.pool.GrowsTo s.body.pool := by
  obtain ⟨arguments, hopened, hcompiled⟩ := h.opened
  exact (hcompiled.performs.continues hopened.wellFormed).pool

theorem ofProgram_cases (program : Program) (className : String) (options : Options) :
    match ofProgram program className options with
    | .ok a => ∃ c s code, Made program className options c s code a
    | .error failure =>
      IsOpeningFault className failure.fault ∨ IsProgramFault program options failure.fault ∨
        failure.fault.IsLimit := by
  have hmain := compileMain_cases program className options
  unfold ofProgram
  cases hrun : compileMain program className options with
  | error failure =>
    rw [hrun] at hmain
    exact hmain.imp_right .inl
  | ok r =>
    obtain ⟨c, s⟩ := r
    rw [hrun] at hmain
    have compiled : MainCompiled program className options c s := hmain
    obtain ⟨arguments, hopened, hcompiled⟩ := compiled.opened
    simp only
    cases hfinish : s.body.finish with
    | error fault =>
      have hsize := finish_eq_error_of_owns hopened.wellFormed hcompiled.performs
        (program.ownsLabels_calls className) hfinish
      exact .inr (.inr (.inr hsize))
    | ok code =>
      have hclosing := closing_yields className options code s.readsInput (c := { c with pool := s.body.pool })
        compiled.grows.2
      simp only
      cases hclosed : closing className options code s.readsInput { c with pool := s.body.pool } with
      | error fault c' => exact .inr (.inr (hclosing.of_error hclosed))
      | ok _ c' => exact ⟨c, s, code, hrun, compiled, hfinish, hclosing.of_ok hclosed⟩

theorem made_of_ok {a : Artifact} (h : ofProgram program className options = .ok a) :
    ∃ c s code, Made program className options c s code a := by
  have hcases := ofProgram_cases program className options
  rwa [h] at hcases

/-- The members and attributes of a compiled class, with what their indices lead to. -/
structure HasParts (className : String) (options : Options) (code : MethodCode) (readsInput : Bool) (k : ClassFile) :
    Prop where
  wellFormed : k.pool.WellFormed
  thisClass : k.pool.IsClass k.thisClass className
  superClass : k.pool.IsClass k.superClass objectClass
  interfaces : k.interfaces = []
  methods : ∃ init main others, k.methods = init :: main :: others ∧
    HasMethod k.pool k.thisClass init Access.isPublic "<init>" "()V" [.uninitializedThis] options.frames
      constructorCalls ∧
    IsMethodWith k.pool main (Access.isPublic ||| Access.isStatic) "main" mainDescriptor code ∧
    HasConsole k.pool k.thisClass className options.frames readsInput k.fields others
  source : HasSource k.pool options.sourceFile k.attributes
  synced : k.sync = k

theorem sync_pool {pool : ConstantPool} (h : pool.WellFormed) : pool.sync = pool := by
  obtain ⟨constants, sizeField⟩ := pool
  have hsize : (constants.size + 1).toUInt16 = sizeField := by
    apply UInt16.toNat_inj.1
    rw [show (constants.size + 1).toUInt16.toNat = (constants.size + 1) % 65536 from rfl, h.sizeField_eq]
    have hlength : constants.size = (ConstantPool.list ⟨constants, sizeField⟩).length := by
      simp [ConstantPool.list, Register.size]
    have := h.size_le
    omega
  rw [ConstantPool.sync, ConstantPool.size, hsize]

theorem Made.parts {c : ClassFile} {s : Session} {code : MethodCode} {a : Artifact}
    (h : Made program className options c s code a) :
    HasParts className options code s.readsInput a.classFile ∧ s.body.pool.Extends a.classFile.pool ∧
      a.classFile.thisClass = c.thisClass := by
  obtain ⟨arguments, hopened, -⟩ := h.compiled.opened
  obtain ⟨pool, main, fields, methods, attributes, hgrows, hmain, hconsole, hsource, heq⟩ := h.closed
  obtain ⟨init, hinit, hconstructor⟩ := hopened.methods
  have hlate : c.pool.Extends pool := h.compiled.grows.1.trans hgrows.1
  have hpool : a.classFile.pool = pool := by
    rw [heq]
    exact sync_pool hgrows.2
  have hfields : a.classFile.fields = fields := by rw [heq]; simp [ClassFile.sync, hopened.fields]
  have hattributes : a.classFile.attributes = attributes := by rw [heq]; simp [ClassFile.sync, hopened.attributes]
  have hmethods : a.classFile.methods = init :: main :: methods := by rw [heq]; simp [ClassFile.sync, hinit]
  have hthis : a.classFile.thisClass = c.thisClass := by rw [heq]; rfl
  have hsuper : a.classFile.superClass = c.superClass := by rw [heq]; rfl
  refine ⟨⟨?_, ?_, ?_, ?_, ⟨init, main, methods, hmethods, ?_, ?_, ?_⟩, ?_, ?_⟩, ?_, hthis⟩
  · rw [hpool]; exact hgrows.2
  · rw [hpool, hthis]; exact hopened.thisClass.mono hlate
  · rw [hpool, hsuper]; exact hopened.superClass.mono hlate
  · rw [heq]; exact hopened.interfaces
  · rw [hpool, hthis]; exact hconstructor.mono hlate
  · rw [hpool]; exact hmain
  · rw [hpool, hthis, hfields]; exact hconsole
  · rw [hpool, hattributes]; exact hsource
  · rw [heq]; rfl
  · rw [hpool]; exact hgrows.1

end Artifact

end KnightCode
