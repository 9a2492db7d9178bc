import KnightCode.Proofs.Redeclarations
import KnightCode.Proofs.Values

/-!
# What compiling leaves of the scopes

Whether compiling a program succeeds or stops at a fault, however deep in its blocks, the scopes are as many as before
and have kept their variables. Only the innermost one gains variables: those that the program declares first, in their
order and with the next slots.
-/

namespace KnightCode

/-! ## New declarations -/

def Variable.declaration (v : Variable) : Declaration := ⟨v.type, v.name⟩

theorem newOnes_sublist (known : List String) (decls : List Declaration) : (newOnes known decls).Sublist decls := by
  induction decls generalizing known with
  | nil => exact .slnil
  | cons d decls ih =>
    unfold newOnes
    split
    · exact (ih known).cons d
    · exact (ih _).cons_cons d

theorem not_known_of_mem_newOnes {known : List String} {decls : List Declaration} {d : Declaration}
    (h : d ∈ newOnes known decls) : d.name ∉ known := by
  induction decls generalizing known with
  | nil => simp [newOnes] at h
  | cons e decls ih =>
    unfold newOnes at h
    split at h
    · exact ih h
    · next hfresh =>
      rcases List.mem_cons.1 h with rfl | h
      · exact hfresh
      · exact fun hmem => ih h (List.mem_append_left _ hmem)

theorem find?_of_mem_newOnes {known : List String} {decls : List Declaration} {d : Declaration}
    (h : d ∈ newOnes known decls) : decls.find? (fun e => e.name = d.name) = some d := by
  -- For every list of known names, since it grows with each new one.
  induction decls generalizing known with
  | nil => simp [newOnes] at h
  | cons e decls ih =>
    have hunknown := not_known_of_mem_newOnes h
    unfold newOnes at h
    split at h
    · next hknown =>
      have hne : e.name ≠ d.name := fun heq => hunknown (heq ▸ hknown)
      simpa [hne] using ih h
    · rcases List.mem_cons.1 h with rfl | h
      · simp
      · have hne : e.name ≠ d.name := fun heq => not_known_of_mem_newOnes h (by simp [heq])
        simpa [hne] using ih h

theorem declaration_variablesFrom (slot : UInt16) (decls : List Declaration) :
    (variablesFrom slot decls).map Variable.declaration = decls := by
  induction decls generalizing slot with
  | nil => rfl
  | cons d decls ih =>
    rw [variablesFrom, List.map_cons, ih]
    rfl

theorem variablesFrom_append (slot : UInt16) (first second : List Declaration) :
    variablesFrom slot (first ++ second) =
      variablesFrom slot first ++ variablesFrom (slot + UInt16.ofNat first.length) second := by
  induction first generalizing slot with
  | nil => simp [variablesFrom]
  | cons d first ih =>
    have hslot : slot + 1 + UInt16.ofNat first.length = slot + UInt16.ofNat (d :: first).length := by
      rw [List.length_cons, Nat.add_comm, UInt16.ofNat_add, UInt16.add_assoc]
      rfl
    rw [List.cons_append, variablesFrom, variablesFrom, ih, hslot, List.cons_append]

theorem slot_of_variablesFrom {slot : UInt16} {decls : List Declaration} {k : Nat} {v : Variable}
    (room : slot.toNat + decls.length < 65536) (hv : (variablesFrom slot decls)[k]? = some v) :
    v.slot.toNat = slot.toNat + k := by
  induction decls generalizing slot k with
  | nil => cases hv
  | cons d decls ih =>
    rw [List.length_cons] at room
    rw [variablesFrom] at hv
    cases k with
    | zero =>
      cases hv
      rfl
    | succ k =>
      have hnext : (slot + 1).toNat = slot.toNat + 1 := by
        rw [UInt16.toNat_add, UInt16.toNat_one]
        omega
      rw [List.getElem?_cons_succ] at hv
      rw [ih (by omega) hv, hnext]
      omega

/-! ## Tables with more variables -/

namespace ScopeTable

/-- Beside the variables of the first table, the second one has those of some declarations in its innermost scope. -/
structure Gains (t : ScopeTable) (decls : List Declaration) (t' : ScopeTable) : Prop where
  outer : t'.outer.map Scope.layout = t.outer.map Scope.layout
  innermost : t'.innermost.layout = t.innermost.layout ++ (variablesFrom t.nextSlot decls).map Variable.fixed
  next : t'.nextSlot.toNat = t.nextSlot.toNat + decls.length

variable {t m t' : ScopeTable} {first second : List Declaration}

theorem SameButValues.gains (h : t.SameButValues t') : t.Gains [] t' :=
  ⟨h.outer, h.innermost.trans (List.append_nil _).symm, congrArg UInt16.toNat h.nextSlot⟩

theorem gains_extended (room : t.nextSlot ≠ 65535) (d : Declaration) :
    t.Gains [d] (t.extended (d.variable t.nextSlot)) :=
  ⟨rfl, Scope.layout_push _ _, toNat_nextSlot_extended room _⟩

theorem Gains.trans (h : t.Gains first m) (h' : m.Gains second t') : t.Gains (first ++ second) t' := by
  have hnext : m.nextSlot = t.nextSlot + UInt16.ofNat first.length := by
    have hbound := m.nextSlot.toNat_lt
    have hsum := h.next
    apply UInt16.toNat_inj.1
    rw [UInt16.toNat_add, UInt16.toNat_ofNat']
    omega
  refine ⟨h'.outer.trans h.outer, ?_, ?_⟩
  · rw [h'.innermost, h.innermost, hnext, variablesFrom_append, List.map_append, List.append_assoc]
  · rw [h'.next, h.next, List.length_append, Nat.add_assoc]

theorem Gains.parts {decls : List Declaration} (h : t.Gains decls t') :
    ∃ kept gained, t'.current = kept ++ gained ∧ kept.map Variable.fixed = t.current.map Variable.fixed ∧
      gained.map Variable.declaration = decls ∧ ∀ k v, gained[k]? = some v → v.slot.toNat = t.nextSlot.toNat + k := by
  obtain ⟨kept, gained, hcurrent, hkept, hgained⟩ := List.map_eq_append_iff.1 h.innermost
  refine ⟨kept, gained, hcurrent, hkept, ?_, ?_⟩
  · have hdeclarations := congrArg (List.map fun f => Declaration.mk f.2.1 f.1) hgained
    rw [List.map_map, List.map_map] at hdeclarations
    exact hdeclarations.trans (declaration_variablesFrom _ _)
  · intro k v hv
    have hfixed : ((variablesFrom t.nextSlot decls).map Variable.fixed)[k]? = some v.fixed := by
      rw [← hgained, List.getElem?_map, hv]
      rfl
    rw [List.getElem?_map] at hfixed
    obtain ⟨w, hw, heq⟩ := Option.map_eq_some_iff.1 hfixed
    have hroom : t.nextSlot.toNat + decls.length < 65536 := by
      rw [← h.next]
      exact UInt16.toNat_lt _
    rw [← show w.slot = v.slot from congrArg (·.2.2) heq]
    exact slot_of_variablesFrom hroom hw

theorem Gains.known {decls : List Declaration} (h : t.Gains decls t') : t'.known = t.known ++ decls.map (·.name) := by
  have hnames := congrArg (List.map (·.1)) h.innermost
  have hdecls := congrArg (List.map (·.name)) (declaration_variablesFrom t.nextSlot decls)
  rw [List.map_append, Scope.names_layout, Scope.names_layout, List.map_map] at hnames
  rw [List.map_map] at hdecls
  rw [← hdecls]
  exact hnames

theorem Gains.depth_eq {decls : List Declaration} (h : t.Gains decls t') : t'.depth = t.depth := by
  have hlength := congrArg List.length h.outer
  rw [List.length_map, List.length_map] at hlength
  exact congrArg (· + 1) hlength

end ScopeTable

/-! ## What compiling does to the scopes -/

namespace Session

/-- Wherever the work ends, nothing has changed in the scopes but values. -/
def Keeps {α : Type} (work : Compiling α) : Prop := ∀ s : Session, s.scope.SameButValues (lastState (work s)).scope

section Laws

variable {α β : Type} {work : Compiling α}

theorem Keeps.of_pure (a : α) : Keeps (pure a) := fun s => .refl s.scope

theorem Keeps.bind {next : α → Compiling β} (h : Keeps work) (hnext : ∀ a, Keeps (next a)) : Keeps (work >>= next) := by
  intro s
  have hs := h s
  rw [lastState_bind]
  cases hrun : work s with
  | ok a m =>
    rw [hrun] at hs
    exact hs.trans (hnext a m)
  | error fault m =>
    rw [hrun] at hs
    exact hs

theorem Keeps.look {next : Session → Compiling β} (h : ∀ s, Keeps (next s)) : Keeps (get >>= next) := fun s => h s s

theorem keeps_call (c : Call) : Keeps (call c) := by
  rintro ⟨className, policy, body, scope, notices, readsInput⟩
  simp only [call, onBody]
  cases c.perform body <;> exact .refl scope

theorem keeps_say (n : Notice) : Keeps (say n) := fun s => .refl s.scope

theorem keeps_remember (name : String) (value : Value) : Keeps (remember name value) := by
  rintro ⟨className, policy, body, scope, notices, readsInput⟩
  simp only [remember, onScope]
  rcases ScopeTable.set_cases name value scope with ⟨-, t, hset, hsame⟩ | ⟨-, hset⟩
  · rw [hset]
    exact hsame
  · rw [hset]
    exact .refl scope

/-- The scope that the work has entered is left again, also if the work fails. -/
theorem keeps_inNewScope {work : Compiling Unit} (h : Keeps work) : Keeps (inNewScope work) := by
  intro s
  rw [inNewScope_run, lastState_withState]
  exact (h s.entered).exit

end Laws

/-! ### Expressions and statements -/

theorem keeps_newLabel : Keeps newLabel := .look fun _ => (keeps_call .newLabel).bind fun _ => .of_pure _

theorem keeps_resolve (name : String) : Keeps (resolve name) := by
  refine .look fun s => ?_
  cases s.scope.lookup? name with
  | some v => exact .of_pure _
  | none =>
    refine .look fun s' => ?_
    cases s'.policy with
    | fatal => exact fun s => .refl s.scope
    | report => exact (keeps_say _).bind fun _ => .of_pure _

theorem keeps_loadVariable (name : String) : Keeps (loadVariable name) := by
  refine (keeps_resolve name).bind ?_
  rintro (_ | ⟨slot, type⟩)
  · exact keeps_call _
  · exact keeps_call _

theorem keeps_expr (e : Expr) : Keeps (compileExpr e) := by
  induction e with
  | number value => exact keeps_call _
  | name x => exact keeps_loadVariable x
  | paren inner ih => exact ih
  | arithmetic op left right ihl ihr => exact ihl.bind fun _ => ihr.bind fun _ => keeps_call _
  | compare op left right ihl ihr =>
    refine keeps_newLabel.bind fun yes => keeps_newLabel.bind fun done => ihl.bind fun _ => ihr.bind fun _ => ?_
    exact (keeps_call _).bind fun _ => (keeps_call _).bind fun _ => (keeps_call _).bind fun _ =>
      (keeps_call _).bind fun _ => (keeps_call _).bind fun _ => keeps_call _

theorem keeps_operand (o : Operand) : Keeps (loadOperand o) := by
  cases o with
  | number value => exact keeps_call _
  | name x => exact keeps_loadVariable x

theorem keeps_test (t : Test) (condition : Condition) (label : Nat) : Keeps (compileTest t condition label) :=
  (keeps_operand t.left).bind fun _ => (keeps_operand t.right).bind fun _ => keeps_call _

theorem keeps_withVariable (name : String) {work : UInt16 → VarType → Compiling Unit}
    (h : ∀ slot type, Keeps (work slot type)) : Keeps (withVariable name work) := by
  refine (keeps_resolve name).bind ?_
  rintro (_ | ⟨slot, type⟩)
  · exact .of_pure ()
  · exact h slot type

theorem keeps_readVariable (slot : UInt16) (type : VarType) : Keeps (readVariable slot type) := by
  have hconvert : Keeps (convertLine type) := by
    cases type with
    | integer => exact (keeps_call _).bind fun _ => keeps_call _
    | text => exact .of_pure ()
  have hnoted : Keeps (modify ({ · with readsInput := true }) : Compiling Unit) := fun s => .refl s.scope
  exact .look fun _ => hnoted.bind fun _ => (keeps_call _).bind fun _ => (keeps_call _).bind fun _ =>
    hconvert.bind fun _ => keeps_call _

theorem keeps_assignText (name text : String) (slot : UInt16) (type : VarType) :
    Keeps (assignText name text slot type) := by
  have hstored : Keeps (do call (.pushText text); call (.store slot type.kind); remember name (.text text)) :=
    (keeps_call _).bind fun _ => (keeps_call _).bind fun _ => keeps_remember _ _
  unfold assignText
  split
  · exact (keeps_say _).bind fun _ => hstored
  · exact hstored

theorem keeps_assignExpr (name : String) (value : Expr) (slot : UInt16) (type : VarType) :
    Keeps (assignExpr name value slot type) := by
  have hchecked : ∀ valueType, Keeps (checkType name valueType type) := by
    intro valueType
    unfold checkType
    split
    · exact keeps_say _
    · exact .of_pure ()
  refine .look fun s => (hchecked _).bind fun _ => (keeps_expr value).bind fun _ => (keeps_call _).bind fun _ => ?_
  cases value with
  | number n => exact keeps_remember name (.integer n)
  | _ => exact .of_pure ()

theorem keeps_block (body : List Stmt) : Keeps (compileBlock body) := by
  induction body using block_induction (P := fun stmt => Keeps (compileStmt stmt)) with
  | printText text => exact (keeps_call _).bind fun _ => (keeps_call _).bind fun _ => keeps_call _
  | printName name =>
    exact keeps_withVariable name fun _ _ => (keeps_call _).bind fun _ => (keeps_call _).bind fun _ => keeps_call _
  | read name => exact keeps_withVariable name keeps_readVariable
  | setText name text => exact keeps_withVariable name (keeps_assignText name text)
  | setExpr name value => exact keeps_withVariable name (keeps_assignExpr name value)
  | ifThen test thenBody ih =>
    refine keeps_newLabel.bind fun yes => keeps_newLabel.bind fun done => (keeps_test test _ _).bind fun _ => ?_
    refine (keeps_call _).bind fun _ => (keeps_call _).bind fun _ => ?_
    exact (keeps_inNewScope ih).bind fun _ => keeps_call _
  | ifElse test thenBody elseBody ihThen ihElse =>
    refine keeps_newLabel.bind fun yes => keeps_newLabel.bind fun done => (keeps_test test _ _).bind fun _ => ?_
    refine (keeps_inNewScope ihElse).bind fun _ => (keeps_call _).bind fun _ => (keeps_call _).bind fun _ => ?_
    exact (keeps_inNewScope ihThen).bind fun _ => keeps_call _
  | whileDo test body ih =>
    refine keeps_newLabel.bind fun again => keeps_newLabel.bind fun done => (keeps_call _).bind fun _ => ?_
    refine (keeps_test test _ _).bind fun _ => (keeps_inNewScope ih).bind fun _ => ?_
    exact (keeps_call _).bind fun _ => keeps_call _
  | nil => exact .of_pure ()
  | cons stmt rest ihStmt ihRest => exact ihStmt.bind fun _ => ihRest

/-! ### Declarations and programs -/

theorem declaration_gains (d : Declaration) (s : Session) :
    ∃ new, new <+: newOnes s.scope.known [d] ∧ s.scope.Gains new (lastState (compileDeclaration d s)).scope ∧
      ∀ r, compileDeclaration d s = .ok () r → new = newOnes s.scope.known [d] := by
  by_cases full : s.scope.nextSlot = 65535
  · rw [compileDeclaration_full full]
    exact ⟨[], List.nil_prefix, (ScopeTable.SameButValues.refl _).gains, by simp⟩
  by_cases again : d.name ∈ s.scope.known
  · have hnone : newOnes s.scope.known [d] = [] := by simp [newOnes, again]
    rw [compileDeclaration_again full again, hnone]
    exact ⟨[], List.prefix_rfl, (keeps_say _ s).gains, fun _ _ => rfl⟩
  · -- The variable stays declared if the code for its value cannot be added.
    have hnew : newOnes s.scope.known [d] = [d] := by simp [newOnes, again]
    have hcalls : Keeps (do call (pushDefault d.type); call (.store s.scope.nextSlot d.type.kind)) :=
      (keeps_call _).bind fun _ => keeps_call _
    have hgains := (hcalls { s with scope := s.scope.extended (d.variable s.scope.nextSlot) }).gains
    rw [compileDeclaration_fresh full again, hnew]
    exact ⟨[d], List.prefix_rfl, (ScopeTable.gains_extended full d).trans hgains, fun _ _ => rfl⟩

/-- The innermost scope gains the first ones of the new variables, and all of them if no declaration fails. -/
theorem declarations_gain (decls : List Declaration) : ∀ s : Session,
    ∃ new, new <+: newOnes s.scope.known decls ∧
      s.scope.Gains new (lastState (decls.forM compileDeclaration s)).scope ∧
      ∀ r, decls.forM compileDeclaration s = .ok () r → new = newOnes s.scope.known decls := by
  induction decls with
  | nil => exact fun s => ⟨[], List.prefix_rfl, (ScopeTable.SameButValues.refl _).gains, fun _ _ => rfl⟩
  | cons d decls ih =>
    intro s
    have hcons : (d :: decls).forM compileDeclaration = (do compileDeclaration d; decls.forM compileDeclaration) := rfl
    have happend := newOnes_append s.scope.known [d] decls
    rw [List.singleton_append] at happend
    obtain ⟨first, hbegins, hgains, hall⟩ := declaration_gains d s
    rw [hcons, happend]
    cases hrun : compileDeclaration d s with
    | error fault m =>
      rw [hrun] at hgains
      have herror : (do compileDeclaration d; decls.forM compileDeclaration) s = .error fault m :=
        bind_eq_error.2 (.inl hrun)
      rw [herror]
      exact ⟨first, hbegins.trans (List.prefix_append _ _), hgains, by simp⟩
    | ok _ m =>
      rw [hrun, lastState] at hgains
      have hok : (do compileDeclaration d; decls.forM compileDeclaration) s = decls.forM compileDeclaration m :=
        bind_run_ok hrun
      obtain rfl := hall m hrun
      obtain ⟨rest, hrest, hgains', hall'⟩ := ih m
      rw [hgains.known] at hrest hall'
      rw [hok]
      exact ⟨_, (List.prefix_append_right_inj _).2 hrest, hgains.trans hgains', fun r hr => by rw [hall' r hr]⟩

theorem compileProgram_gains (program : Program) (s : Session) :
    ∃ new, new <+: newOnes s.scope.known (program.declarations.getD []) ∧
      s.scope.Gains new (lastState (compileProgram program s)).scope ∧
      ∀ r, compileProgram program s = .ok () r → new = newOnes s.scope.known (program.declarations.getD []) := by
  obtain ⟨new, hbegins, hgains, hall⟩ := declarations_gain (program.declarations.getD []) s
  have hprogram : compileProgram program =
      (do (program.declarations.getD []).forM compileDeclaration; compileBlock program.body) := rfl
  refine ⟨new, hbegins, ?_, ?_⟩
  · rw [hprogram, lastState_bind]
    cases hrun : (program.declarations.getD []).forM compileDeclaration s with
    | ok _ m =>
      rw [hrun] at hgains
      have hblock := hgains.trans (keeps_block program.body m).gains
      rwa [List.append_nil] at hblock
    | error fault m =>
      rw [hrun] at hgains
      exact hgains
  · intro r hr
    rw [hprogram] at hr
    obtain ⟨_, m, hm, -⟩ := bind_eq_ok.1 hr
    exact hall m hm

/-- A block that has a scope of its own is compiled with one scope more. This scope is left wherever compiling the block
stops, and those around it then have the variables that they had. So however compiling a program ends, there are as many
scopes as before. Every scope has kept its variables, with their names, types and slots, and the outer ones have gained
none. What the innermost one has gained are the first of the new variables that the program declares, in their order,
each with the next slot and the type of the first declaration of its name; all of them if compiling succeeds. -/
theorem scopes_restored (program : Program) (s : Session) :
    let t := s.scope
    let t' := (lastState (compileProgram program s)).scope
    let decls := program.declarations.getD []
    let new := newOnes t.known decls
    (∀ block, let inner := lastState (compileBlock block s.entered)
      inner.scope.depth = t.depth + 1 ∧ lastState (inNewScope (compileBlock block) s) = inner.left ∧
      inner.left.scope.layout = t.layout) ∧
    t'.depth = t.depth ∧ t'.outer.map Scope.layout = t.outer.map Scope.layout ∧ new.Sublist decls ∧
    ∃ kept gained, t'.current = kept ++ gained ∧ kept.map Variable.fixed = t.current.map Variable.fixed ∧
      gained.map Variable.declaration <+: new ∧
      (∀ k v, gained[k]? = some v → v.slot.toNat = t.nextSlot.toNat + k ∧
        (decls.find? fun d => d.name = v.name).map (·.type) = some v.type) ∧
      t'.nextSlot.toNat = t.nextSlot.toNat + gained.length ∧
      ∀ r, compileProgram program s = .ok () r → gained.map Variable.declaration = new := by
  intro t t' decls new
  obtain ⟨declared, hbegins, hgains, hall⟩ := compileProgram_gains program s
  obtain ⟨kept, gained, hcurrent, hkept, rfl, hslots⟩ := hgains.parts
  refine ⟨?_, hgains.depth_eq, hgains.outer, newOnes_sublist _ _, kept, gained, hcurrent, hkept, hbegins, ?_, ?_, hall⟩
  · intro block inner
    have hinner := keeps_block block s.entered
    exact ⟨hinner.gains.depth_eq, by rw [inNewScope_run, lastState_withState], hinner.exit.layout⟩
  · intro k v hv
    have hmem : v.declaration ∈ new := hbegins.subset (List.mem_map_of_mem (List.mem_of_getElem? hv))
    refine ⟨hslots k v hv, ?_⟩
    rw [show decls.find? (fun d => d.name = v.name) = some v.declaration from find?_of_mem_newOnes hmem]
    rfl
  · rw [← List.length_map (f := Variable.declaration)]
    exact hgains.next

/-- Declares three variables, one of them twice and one that the scope has, and fails in the second of two nested
blocks. -/
def failingInside : Program :=
  ⟨"p", some [⟨.integer, "x"⟩, ⟨.text, "y"⟩, ⟨.integer, "z"⟩, ⟨.integer, "y"⟩],
    [.whileDo ⟨.name "z", .less, .number 3⟩ [.setExpr "z" (.number 1), .ifThen ⟨.name "z", .equal, .number 1⟩
      [.setText "y" "a", .printName "w"]]]⟩

theorem scopes_restored_failingInside :
    let s := ScopeTable.shadowedSession
    let t' := (lastState (compileProgram failingInside s)).scope
    (compileProgram failingInside).run' s = none ∧ t'.depth = 2 ∧
    (lastState (compileBlock failingInside.body s.entered)).scope.depth = 3 ∧
    ∃ kept gained, t'.current = kept ++ gained ∧ kept.map Variable.fixed = [("x", .text, 3)] ∧
      gained.map Variable.declaration <+: [⟨.text, "y"⟩, ⟨.integer, "z"⟩] ∧
      ∀ k v, gained[k]? = some v → v.slot.toNat = 4 + k := by
  obtain ⟨hblock, hdepth, -, -, kept, gained, hcurrent, hkept, hnew, hslots, -⟩ :=
    scopes_restored failingInside ScopeTable.shadowedSession
  have hold : ScopeTable.shadowedSession.scope.depth = 2 ∧ ScopeTable.shadowedSession.scope.nextSlot.toNat = 4 ∧
      ScopeTable.shadowedSession.scope.current.map Variable.fixed = [("x", .text, 3)] ∧
      newOnes ScopeTable.shadowedSession.scope.known (failingInside.declarations.getD []) =
        [⟨.text, "y"⟩, ⟨.integer, "z"⟩] := by decide +kernel
  obtain ⟨hdepth', hnext, hfixed, hdeclarations⟩ := hold
  have hinner := (hblock failingInside.body).1
  rw [hdepth'] at hinner hdepth
  refine ⟨by decide +kernel, hdepth, hinner, kept, gained, hcurrent, hkept.trans hfixed, hdeclarations ▸ hnew, ?_⟩
  intro k v hv
  rw [← hnext]
  exact (hslots k v hv).1

end Session

end KnightCode
