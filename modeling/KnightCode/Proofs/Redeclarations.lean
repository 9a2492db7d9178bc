import KnightCode.Proofs.Policies
import KnightCode.Proofs.ScopeHistory

/-!
# Names that are declared again

As long as a slot is left, a declaration of a name that the scope has already is noticed as such and changes nothing, and
the declarations after it go on. A table whose slots are all given out says of every declaration that there are too many
variables, also of one that needs no slot.
-/

namespace KnightCode

/-! ## First and later declarations -/

/-- The declarations of new names: of names that are not known and were not declared before. -/
def newOnes (known : List String) : List Declaration → List Declaration
  | [] => []
  | d :: rest => if d.name ∈ known then newOnes known rest else d :: newOnes (known ++ [d.name]) rest

def repeated (known : List String) : List Declaration → List Declaration
  | [] => []
  | d :: rest => if d.name ∈ known then d :: repeated known rest else repeated (known ++ [d.name]) rest

theorem newOnes_append (known : List String) (first second : List Declaration) :
    newOnes known (first ++ second) =
      newOnes known first ++ newOnes (known ++ (newOnes known first).map (·.name)) second := by
  induction first generalizing known with
  | nil => simp [newOnes]
  | cons d first ih => by_cases h : d.name ∈ known <;> simp [newOnes, h, ih]

theorem repeated_append (known : List String) (first second : List Declaration) :
    repeated known (first ++ second) =
      repeated known first ++ repeated (known ++ (newOnes known first).map (·.name)) second := by
  induction first generalizing known with
  | nil => simp [repeated, newOnes]
  | cons d first ih => by_cases h : d.name ∈ known <;> simp [repeated, newOnes, h, ih]

/-- The variables of declarations, with the slots from this one on. -/
def variablesFrom (slot : UInt16) : List Declaration → List Variable
  | [] => []
  | d :: rest => d.variable slot :: variablesFrom (slot + 1) rest

def Declaration.notice (d : Declaration) : Notice := .redeclared d.name d.type

namespace ScopeTable

section Steps

variable {t t' : ScopeTable} {d : Declaration} {decls : List Declaration} {added : List Action}

/-! ### Declarations that all find a slot -/

structure Announced (t : ScopeTable) (decls : List Declaration) (t' : ScopeTable) (added : List Action) : Prop where
  outer : t'.outer = t.outer
  current : t'.current = t.current ++ variablesFrom t.nextSlot (newOnes t.known decls)
  next : t'.nextSlot.toNat = t.nextSlot.toNat + (newOnes t.known decls).length
  calls : callsOf added = (variablesFrom t.nextSlot (newOnes t.known decls)).flatMap defaultCalls
  rescope : rescope added t = .ok () t'
  noted : added.flatMap Action.noted = (repeated t.known decls).map Declaration.notice
  clean : ∀ fault, .fail fault ∉ added

theorem Announced.nil (t : ScopeTable) : Announced t [] t [] :=
  ⟨rfl, by simp [newOnes, variablesFrom], rfl, rfl, rfl, rfl, by simp⟩

theorem Announced.again (again : d.name ∈ t.known) (rest : Announced t decls t' added) :
    Announced t (d :: decls) t' (.notice d.notice :: added) where
  outer := rest.outer
  current := by rw [newOnes, if_pos again, rest.current]
  next := by rw [newOnes, if_pos again, rest.next]
  calls := by rw [newOnes, if_pos again]; exact rest.calls
  rescope := rest.rescope
  noted := by rw [repeated, if_pos again, List.flatMap_cons, List.map_cons, rest.noted]; rfl
  clean := by simpa using rest.clean

theorem Announced.fresh (room : t.nextSlot ≠ 65535) (fresh : d.name ∉ t.known)
    (rest : Announced (t.extended (d.variable t.nextSlot)) decls t' added) :
    Announced t (d :: decls) t'
      (.declare d.name d.type :: ((defaultCalls (d.variable t.nextSlot)).map .call ++ added)) where
  outer := rest.outer
  current := by
    rw [rest.current, current_extended, known_extended, newOnes, if_neg fresh, List.append_assoc]
    rfl
  next := by
    rw [rest.next, toNat_nextSlot_extended room, known_extended, newOnes, if_neg fresh, List.length_cons]
    omega
  calls := by
    have hcons : callsOf (.declare d.name d.type :: ((defaultCalls (d.variable t.nextSlot)).map .call ++ added)) =
        callsOf ((defaultCalls (d.variable t.nextSlot)).map .call) ++ callsOf added := callsOf_append _ _
    rw [hcons, callsOf_map_call, rest.calls, known_extended, newOnes, if_neg fresh]
    rfl
  rescope := by
    refine bind_eq_ok.2 ⟨(), _, bind_eq_ok.2 ⟨_, _, declare_fresh room fresh, rfl⟩, ?_⟩
    have hskip := rescope_calls_append (defaultCalls (d.variable t.nextSlot)) added
    exact (congrFun hskip _).trans rest.rescope
  noted := by
    have hcalls : ((defaultCalls (d.variable t.nextSlot)).map Action.call).flatMap Action.noted = [] := by
      simp [List.flatMap_map, Action.noted]
    rw [List.flatMap_cons, List.flatMap_append, hcalls, rest.noted, known_extended, repeated, if_neg fresh]
    rfl
  clean := by simpa using rest.clean

end Steps

/-- How the plan of declarations ends: all of them have been planned, or the next one finds no slot. -/
inductive Ends (t : ScopeTable) : List Declaration → List Action → Prop
  | all : Ends t [] []
  | full {d : Declaration} {rest : List Declaration} (full : t.nextSlot = 65535) :
      Ends t (d :: rest) [.fail (.code (.tooManyVariables d.name))]

theorem planDeclarations_announced (decls : List Declaration) (t : ScopeTable) (p : Plan) :
    ∃ done left added stop, decls = done ++ left ∧ Announced t done (planDeclarations t decls p).1 added ∧
      Ends (planDeclarations t decls p).1 left stop ∧
      (planDeclarations t decls p).2.actions.toList = p.actions.toList ++ added ++ stop := by
  -- On the declarations, with the table as it is by then: it is full, has the name, or takes the variable.
  induction decls generalizing t p with
  | nil => exact ⟨[], [], [], [], rfl, .nil t, .all, by simp [planDeclarations]⟩
  | cons d decls ih =>
    rw [planDeclarations]
    by_cases full : t.nextSlot = 65535
    · rw [declare_full full]
      exact ⟨[], d :: decls, [], _, rfl, .nil t, .full full, by simp⟩
    by_cases again : d.name ∈ t.known
    · rw [declare_again full again]
      obtain ⟨done, left, added, stop, rfl, hdone, hends, hactions⟩ := ih t (p.act (.notice d.notice))
      exact ⟨d :: done, left, _, stop, rfl, hdone.again again, hends, hactions.trans (by simp)⟩
    · rw [declare_fresh full again]
      obtain ⟨done, left, added, stop, rfl, hdone, hends, hactions⟩ := ih (t.extended (d.variable t.nextSlot))
        (planDefault (d.variable t.nextSlot) (p.act (.declare d.name d.type)))
      refine ⟨d :: done, left, _, stop, rfl, hdone.fresh full again, hends, ?_⟩
      simp [hactions, planDefault_actions]

end ScopeTable

theorem Program.plan_parts (p : Program) (s : Setting) (q : Plan) :
    let mid := planDeclarations s.scope (p.declarations.getD []) q
    ∃ done left declaring stop doing, p.declarations.getD [] = done ++ left ∧ s.scope.Announced done mid.1 declaring ∧
      ScopeTable.Ends mid.1 left stop ∧ mid.2.actions.toList = q.actions.toList ++ (declaring ++ stop) ∧
      (p.plan s q).actions.toList = q.actions.toList ++ (declaring ++ stop) ++ doing ∧
      ∀ a ∈ doing, ({ s with scope := mid.1 } : Setting).Allows a := by
  intro mid
  obtain ⟨done, left, declaring, stop, hdecls, hdone, hends, hactions⟩ :=
    ScopeTable.planDeclarations_announced (p.declarations.getD []) s.scope q
  obtain ⟨doing, hdoing, hallowed⟩ := Setting.leads_block p.body { s with scope := mid.1 } _ _ (.refl mid.2)
  rw [List.append_assoc] at hactions
  refine ⟨done, left, declaring, stop, doing, hdecls, hdone, hends, hactions, ?_, hallowed⟩
  rw [← hactions, ← hdoing]
  rfl

/-! ## Sessions -/

/-- What comes of declarations in a session. Each name that is declared again is noticed once, and the first declarations
get their slots. A failure is one of the body, or a declaration finds no slot. -/
theorem Session.declarations_yield (title : String) (decls : List Declaration) (s : Session) :
    Yields (compileProgram ⟨title, some decls, []⟩) s
      (fun _ s' =>
        s'.notices.toList = s.notices.toList ++ (repeated s.scope.known decls).map Declaration.notice ∧
        s'.scope.outer = s.scope.outer ∧
        s'.scope.current = s.scope.current ++ variablesFrom s.scope.nextSlot (newOnes s.scope.known decls))
      (fun fault =>
        (∃ done b, done <+: decls ∧ Call.performAll
          ((variablesFrom s.scope.nextSlot (newOnes s.scope.known done)).flatMap defaultCalls) s.body = .error fault b) ∨
        ∃ before d after, decls = before ++ d :: after ∧
          s.scope.nextSlot.toNat + (newOnes s.scope.known before).length = 65535 ∧
          fault = .code (.tooManyVariables d.name)) := by
  obtain ⟨done, left, added, stop, hdecls, hdone, hends, hactions⟩ :=
    ScopeTable.planDeclarations_announced decls s.scope s.emptyPlan
  have hrun : compileProgram ⟨title, some decls, []⟩ s = carryOutAll (added ++ stop) s := by
    have hplan : compileProgram ⟨title, some decls, []⟩ s =
        carryOutAll (planDeclarations s.scope decls s.emptyPlan).2.actions.toList s := compileProgram_planned _ s
    rw [hplan, hactions, emptyPlan, List.append_assoc]
    rfl
  refine .intro ?_ ?_
  · intro _ s' hok
    rw [hrun] at hok
    obtain ⟨-, hscope, hclean, -⟩ := carryOutAll_eq_ok hok
    cases hends with
    | full => exact absurd (List.mem_append_right _ (.head _)) (hclean _)
    | all =>
      rw [List.append_nil] at hok hscope hdecls
      subst hdecls
      have htable : s'.scope = (planDeclarations s.scope decls s.emptyPlan).1 := by
        rw [hdone.rescope] at hscope
        exact (EStateM.Result.ok.inj hscope).2.symm
      rw [notices_of_carryOutAll hok, hdone.noted, htable]
      exact ⟨rfl, hdone.outer, hdone.current⟩
  · -- The declared part of the plan fails nowhere but in its calls, so a failure is one of these or the last action.
    intro fault s' herror
    rw [hrun] at herror
    have hcalls : callsOf (added ++ stop) =
        (variablesFrom s.scope.nextSlot (newOnes s.scope.known done)).flatMap defaultCalls := by
      rw [callsOf_append, hdone.calls]
      cases hends <;> exact List.append_nil _
    have hrescope : ∃ t, rescope (added ++ stop) s.scope = .ok () t := by
      have hsplit : rescope (added ++ stop) = (do rescope added; rescope stop) := List.forM_append
      refine ⟨(planDeclarations s.scope decls s.emptyPlan).1, ?_⟩
      rw [hsplit]
      refine bind_eq_ok.2 ⟨(), _, hdone.rescope, ?_⟩
      cases hends <;> rfl
    rcases carryOutAll_eq_error herror with ⟨b, hb⟩ | ⟨t, ht⟩ | ⟨before, after, hsplit, -⟩
    · exact .inl ⟨done, b, ⟨left, hdecls.symm⟩, hcalls ▸ hb⟩
    · obtain ⟨t', ht'⟩ := hrescope
      rw [ht'] at ht
      cases ht
    · cases hends with
      | all =>
        rw [List.append_nil] at hsplit
        exact absurd (by rw [hsplit]; simp) (hdone.clean fault)
      | @full d rest full =>
        have hfault : fault = .code (.tooManyVariables d.name) := by
          have hmem : .fail fault ∈ added ++ [.fail (.code (.tooManyVariables d.name))] := by rw [hsplit]; simp
          rcases List.mem_append.1 hmem with hmem | hmem
          · exact absurd hmem (hdone.clean fault)
          · simpa using hmem
        have hnext := hdone.next
        rw [full] at hnext
        exact .inr ⟨done, d, rest, hdecls, hnext.symm, hfault⟩

namespace ScopeTable

/-- A declaration of a name that the scope has fails as such as long as fewer than 65534 variables have been declared,
and whatever fails leaves the table as it is. So declarations stop only if the body cannot be built or a declaration
comes when all slots are given out. Otherwise each name that is declared again is noticed with one warning, and the
variables are the ones that there were and those of the first declarations, with the next slots. -/
theorem redeclaration_noticed_while_slots_last (operations : List Operation) :
    let t := empty.after operations
    let given := (empty.declared operations).length
    (∀ name type value,
      (declare name type value t = .error (.duplicate name) t ↔ name ∈ t.known ∧ given < 65534) ∧
      ∀ fault t', declare name type value t = .error fault t' → t' = t) ∧
    ∀ (title : String) (decls : List Declaration) (s : Session), s.scope = t →
      Yields (Session.compileProgram ⟨title, some decls, []⟩) s
        (fun _ s' =>
          s'.notices.toList = s.notices.toList ++ (repeated t.known decls).map Declaration.notice ∧
          (∀ d ∈ repeated t.known decls, d.notice.severity = .warning) ∧
          s'.scope.outer = t.outer ∧
          s'.scope.current = t.current ++ variablesFrom t.nextSlot (newOnes t.known decls))
        (fun fault =>
          (∃ done b, done <+: decls ∧ Call.performAll
            ((variablesFrom t.nextSlot (newOnes t.known done)).flatMap defaultCalls) s.body = .error fault b) ∨
          ∃ before d after, decls = before ++ d :: after ∧ given + (newOnes t.known before).length = 65534 ∧
            fault = .code (.tooManyVariables d.name)) := by
  intro t given
  obtain ⟨horderly, hnext, -⟩ := after_keeps orderly_empty operations
  have hnext : t.nextSlot.toNat = given + 1 := by
    rw [hnext, Nat.add_comm]
    rfl
  have hroom : t.nextSlot ≠ 65535 ↔ given < 65534 := by
    have hbound := t.nextSlot.toNat_lt
    rw [Ne, ← UInt16.toNat_inj, hnext, show (65535 : UInt16).toNat = 65535 from rfl]
    omega
  refine ⟨?_, ?_⟩
  · intro name type value
    refine ⟨declare_eq_duplicate_iff.trans (and_congr_right fun _ => hroom), ?_⟩
    intro fault t' h
    refine (horderly.perform (.declare name type value)).unchanged fault t' ?_
    simp only [Operation.perform, show declare name type value (empty.after operations) = _ from h]
  · intro title decls s hscope
    have hyields := Session.declarations_yield title decls s
    rw [hscope] at hyields
    refine hyields.mono ?_ ?_
    · rintro _ s' ⟨hnotices, houter, hcurrent⟩
      exact ⟨hnotices, fun _ _ => rfl, houter, hcurrent⟩
    · rintro fault (hbody | ⟨before, d, after, hdecls, hfull, hfault⟩)
      · exact .inl hbody
      · exact .inr ⟨before, d, after, hdecls, by omega, hfault⟩

def shadowedSession : Session := ⟨"A", .fatal, .start .empty 0 [] false, empty.after shadowed, #[], false⟩

theorem redeclaration_noticed_while_slots_last_shadowed :
    declare "x" .integer (.integer 5) (empty.after shadowed) = .error (.duplicate "x") (empty.after shadowed) ∧
    ∃ s', Session.compileProgram ⟨"p", some [⟨.integer, "x"⟩, ⟨.text, "y"⟩, ⟨.integer, "y"⟩], []⟩ shadowedSession =
        .ok () s' ∧
      s'.notices.toList = [.redeclared "x" .integer, .redeclared "y" .integer] ∧
      s'.scope.current = [⟨"x", .text, 3, .text "a"⟩, ⟨"y", .text, 4, .text ""⟩] := by
  obtain ⟨hdeclare, hrun⟩ := redeclaration_noticed_while_slots_last shadowed
  have hknown : "x" ∈ (empty.after shadowed).known := by decide +kernel
  have hgiven : (empty.declared shadowed).length < 65534 := by decide +kernel
  obtain ⟨s', hok⟩ : ∃ s', Session.compileProgram ⟨"p", some [⟨.integer, "x"⟩, ⟨.text, "y"⟩, ⟨.integer, "y"⟩], []⟩
      shadowedSession = .ok () s' := exists_ok_of_run' (by decide +kernel)
  obtain ⟨hnotices, -, -, hcurrent⟩ := (hrun _ _ shadowedSession rfl).of_ok hok
  refine ⟨(hdeclare _ _ _).1.2 ⟨hknown, hgiven⟩, s', hok, ?_, ?_⟩
  · rw [hnotices]
    decide +kernel
  · rw [hcurrent]
    decide +kernel

/-! ## A table whose slots are all given out -/

theorem after_append (t : ScopeTable) (first rest : List Operation) :
    t.after (first ++ rest) = (t.after first).after rest := by
  rw [after, List.foldl_append]
  rfl

def passing : List Operation := [.enter, .declare "y" .text (.text ""), .exit]

theorem after_passing {t : ScopeTable} (room : t.nextSlot ≠ 65535) :
    t.after passing = { t with nextSlot := t.nextSlot + 1 } := by
  have hdeclare : declare "y" .text (.text "") t.enter =
      .ok ⟨"y", .text, t.nextSlot, .text ""⟩ (t.enter.extended ⟨"y", .text, t.nextSlot, .text ""⟩) := by
    rw [declare_eq, if_neg (show t.enter.nextSlot ≠ 65535 from room)]
    exact if_neg (by simp [current, enter])
  simp only [after, passing, List.foldl_cons, List.foldl_nil, Operation.perform, lastState, hdeclare]
  rfl

theorem after_passings (n : Nat) {t : ScopeTable} (room : t.nextSlot.toNat + n ≤ 65535) :
    (t.after (List.replicate n passing).flatten).innermost = t.innermost ∧
      (t.after (List.replicate n passing).flatten).nextSlot.toNat = t.nextSlot.toNat + n := by
  -- Each scope that is entered and left takes a slot with it and nothing else.
  induction n generalizing t with
  | zero => exact ⟨rfl, rfl⟩
  | succ n ih =>
    have hroom : t.nextSlot ≠ 65535 := by
      intro heq
      rw [heq, show (65535 : UInt16).toNat = 65535 from rfl] at room
      omega
    have hnext : (t.nextSlot + 1).toNat = t.nextSlot.toNat + 1 :=
      toNat_nextSlot_extended hroom ⟨"y", .text, t.nextSlot, .text ""⟩
    obtain ⟨hinnermost, hslot⟩ := ih (t := { t with nextSlot := t.nextSlot + 1 }) (by simp only [hnext]; omega)
    rw [List.replicate_succ, List.flatten_cons, after_append, after_passing hroom]
    exact ⟨hinnermost, by rw [hslot, hnext]; omega⟩

/-- One variable that stays, and then as many others as there are slots left. -/
def spent : List Operation := [.declare "x" .integer (.integer 0)] ++ (List.replicate 65533 passing).flatten

/-- The name is declared again, and what is said is that there are too many variables. -/
theorem full_table_misses_redeclaration :
    "x" ∈ (empty.after spent).known ∧
    declare "x" .text (.text "") (empty.after spent) =
      .error (.code (.tooManyVariables "x")) (empty.after spent) ∧
    (planDeclarations (empty.after spent) [⟨.text, "x"⟩] ⟨0, #[]⟩).2.actions =
      #[.fail (.code (.tooManyVariables "x"))] := by
  obtain ⟨hinnermost, hslot⟩ := after_passings 65533 (t := empty.after [.declare "x" .integer (.integer 0)])
    (by decide +kernel)
  rw [← after_append, ← spent] at hinnermost hslot
  have hfull : (empty.after spent).nextSlot = 65535 := by
    apply UInt16.toNat_inj.1
    rw [hslot]
    decide +kernel
  refine ⟨?_, declare_full hfull "x" .text (.text ""), ?_⟩
  · rw [known, current, hinnermost]
    decide +kernel
  · rw [planDeclarations, declare_full hfull]
    rfl

end ScopeTable

end KnightCode
