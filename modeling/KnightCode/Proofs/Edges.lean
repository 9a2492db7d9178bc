import KnightCode.Proofs.BranchResolution

/-!
# The ways to a label

A branch, a jump and code that runs into a label are the ways to it. A label keeps the operand stack that all of them
have and, of each local variable, the type that its maker and all of them agree on. Where a label is bound, the body
takes over the types of the label if control does not arrive from the code before; if it does, the body goes on with the
types of that one way, whatever the others are.
-/

namespace KnightCode

/-- A way to a label, with the types that are there. -/
structure Edge where
  label : Nat
  stack : Types
  locals : Types
  deriving DecidableEq

/-- The way to a label that a call is when it is made on the body. A branch has used up its two numbers before. -/
def Call.edge? (b : Body) : Call → Option Edge
  | .branch _ label => some ⟨label, b.stack.pop.pop, b.locals⟩
  | .jump label => some ⟨label, b.stack, b.locals⟩
  | .bind label => if b.reachable then some ⟨label, b.stack, b.locals⟩ else none
  | _ => none

def Call.origin? (b : Body) : Call → Option Types
  | .newLabel => some b.locals
  | _ => none

namespace Body

/-- The ways to labels that calls make, if all of them succeed. -/
def edges (b : Body) : List Call → List Edge
  | [] => []
  | c :: calls => (c.edge? b).toList ++ (lastState (c.perform b)).edges calls

def origins (b : Body) : List Call → List Types
  | [] => []
  | c :: calls => (c.origin? b).toList ++ (lastState (c.perform b)).origins calls

end Body

/-! ## What ways agree on -/

namespace Edge

/-- The types of the local variables on which all the ways agree. -/
def common (origin : Types) (ways : List Edge) : Types :=
  ways.foldl (fun locals e => mergeLocals locals e.locals) origin

theorem common_append (origin : Types) (ways more : List Edge) :
    common origin (ways ++ more) = common (common origin ways) more := by
  unfold common
  rw [List.foldl_append]

end Edge

theorem getElem?_mergeLocals {a b : Types} {k : Nat} {t : VerificationType} (ht : t ≠ .top) :
    (mergeLocals a b)[k]? = some t ↔ a[k]? = some t ∧ b[k]? = some t := by
  unfold mergeLocals
  rw [Array.getElem?_zipWith]
  cases a[k]? with
  | none => simp
  | some s =>
    cases b[k]? with
    | none => simp
    | some s' =>
      by_cases h : s = s'
      · subst h
        simp
      · simp only [if_neg h, Option.some.injEq]
        grind

theorem Edge.getElem?_common {origin : Types} {ways : List Edge} {k : Nat} {t : VerificationType} (ht : t ≠ .top) :
    (common origin ways)[k]? = some t ↔ origin[k]? = some t ∧ ∀ e ∈ ways, e.locals[k]? = some t := by
  induction ways generalizing origin with
  | nil => simp [common]
  | cons e ways ih =>
    have hcons : common origin (e :: ways) = common (mergeLocals origin e.locals) ways := List.foldl_cons ..
    rw [hcons, ih, getElem?_mergeLocals ht, List.forall_mem_cons, and_assoc]

/-- The type of a local variable. A variable that is not there has no type. -/
def typeAt (locals : Types) (k : Nat) : VerificationType := locals[k]?.getD .top

theorem typeAt_eq_iff {locals : Types} {k : Nat} {t : VerificationType} (ht : t ≠ .top) :
    typeAt locals k = t ↔ locals[k]? = some t := by
  unfold typeAt
  cases locals[k]? with
  | none => simp [ht.symm]
  | some s => simp

/-- Types that are among others are all of them if none of the others is missing. -/
theorem typeAt_eq_typeAt_iff {less more : Types}
    (h : ∀ (k : Nat) (t : VerificationType), t ≠ .top → less[k]? = some t → more[k]? = some t) :
    (∀ k, typeAt more k = typeAt less k) ↔
      ∀ (k : Nat) (t : VerificationType), t ≠ .top → more[k]? = some t → less[k]? = some t := by
  constructor
  · intro heq k t ht hmore
    rw [← typeAt_eq_iff ht, ← heq k, typeAt_eq_iff ht]
    exact hmore
  · intro hall k
    by_cases htop : typeAt more k = .top
    · by_cases htop' : typeAt less k = .top
      · rw [htop, htop']
      · exact (typeAt_eq_iff htop').2 (h k _ htop' ((typeAt_eq_iff htop').1 rfl))
    · exact ((typeAt_eq_iff htop).2 (hall k _ htop ((typeAt_eq_iff htop).1 rfl))).symm

/-! ## What a label knows -/

/-- The label has what its origin and the ways to it agree on. -/
structure Label.Sums (l : Label) (origin : Types) (ways : List Edge) : Prop where
  locals : l.locals = Edge.common origin ways
  stack : ∀ e ∈ ways, l.stack = some e.stack
  unused : ways = [] → l.stack = none

theorem Label.Sums.join {l : Label} {origin stack locals : Types} {ways : List Edge} {label : Nat}
    (h : l.Sums origin ways) (hfits : l.Fits stack) :
    (l.join stack locals).Sums origin (ways ++ [⟨label, stack, locals⟩]) where
  locals := by
    rw [Edge.common_append, ← h.locals]
    rfl
  stack := by
    intro e he
    rcases List.mem_append.1 he with he | he
    · exact congrArg some (hfits e.stack (h.stack e he)).symm
    · rw [List.mem_singleton.1 he]
      rfl
  unused := by simp

theorem Label.Sums.of_same {l l' : Label} {origin : Types} {ways : List Edge} (h : l.Sums origin ways)
    (hlocals : l'.locals = l.locals) (hstack : l'.stack = l.stack) : l'.Sums origin ways :=
  ⟨hlocals.trans h.locals, by rw [hstack]; exact h.stack, by rw [hstack]; exact h.unused⟩

namespace Body

/-- The labels know of these ways, having started with these local variables. -/
structure Informed (b : Body) (origins : List Types) (edges : List Edge) : Prop where
  length : origins.length = b.labels.size
  known : ∀ e ∈ edges, e.label < b.labels.size
  label : ∀ (i : Nat) (l : Label), b.labels[i]? = some l → ∃ origin, origins[i]? = some origin ∧
    l.Sums origin (edges.filter (·.label = i))

theorem informed_start (pool : ConstantPool) (thisClass : UInt16) (entryLocals : List VerificationType)
    (wantsFrames : Bool) : (Body.start pool thisClass entryLocals wantsFrames).Informed [] [] where
  length := rfl
  known := by simp
  label := by simp [Body.start]

variable {b b' : Body} {origins : List Types} {edges : List Edge}

theorem Informed.of_labels (h : b.Informed origins edges) (hlabels : b'.labels = b.labels) :
    b'.Informed origins edges := by
  obtain ⟨length, known, label⟩ := h
  rw [← hlabels] at length known label
  exact ⟨length, known, label⟩

theorem Informed.newLabel (h : b.Informed origins edges)
    (hlabels : b'.labels = b.labels.push ⟨none, false, b.locals, none⟩) :
    b'.Informed (origins ++ [b.locals]) edges := by
  refine ⟨?_, ?_, ?_⟩
  · rw [hlabels, Array.size_push, List.length_append, h.length]
    rfl
  · intro e he
    rw [hlabels, Array.size_push]
    exact Nat.lt_succ_of_lt (h.known e he)
  · intro i l hl
    rw [hlabels, Array.getElem?_push] at hl
    split at hl
    · next hi =>
      cases hl
      -- No way leads to a label that has just been made.
      have hnone : edges.filter (·.label = i) = [] := by
        apply List.filter_eq_nil_iff.2
        intro e he heq
        have hlt := h.known e he
        simp only [decide_eq_true_eq] at heq
        omega
      refine ⟨b.locals, ?_, ?_⟩
      · rw [hi, ← h.length, List.getElem?_concat_length]
      · rw [hnone]
        exact ⟨rfl, by simp, fun _ => rfl⟩
    · next hi =>
      have hlt := (Array.getElem?_eq_some_iff.1 hl).1
      obtain ⟨origin, horigin, hsums⟩ := h.label i l hl
      exact ⟨origin, by rw [List.getElem?_append_left (by rw [h.length]; exact hlt), horigin], hsums⟩

theorem Informed.modify (h : b.Informed origins edges) {label : Nat} {l : Label} {f : Label → Label} (more : List Edge)
    (hl : b.labels[label]? = some l) (hlabels : b'.labels = b.labels.modify label f)
    (hmore : ∀ e ∈ more, e.label = label)
    (hf : ∀ origin ways, l.Sums origin ways → (f l).Sums origin (ways ++ more)) :
    b'.Informed origins (edges ++ more) := by
  refine ⟨?_, ?_, ?_⟩
  · rw [hlabels, Array.size_modify, h.length]
  · intro e he
    rw [hlabels, Array.size_modify]
    rcases List.mem_append.1 he with he | he
    · exact h.known e he
    · rw [hmore e he]
      exact (Array.getElem?_eq_some_iff.1 hl).1
  · intro i l' hl'
    rw [hlabels] at hl'
    rw [List.filter_append]
    obtain ⟨rfl, k, hk, rfl⟩ | ⟨hi, hl'⟩ := getElem?_modify_cases hl'
    · rw [hl] at hk
      cases hk
      obtain ⟨origin, horigin, hsums⟩ := h.label label l hl
      have hall : more.filter (·.label = label) = more := List.filter_eq_self.2 fun e he => by simp [hmore e he]
      rw [hall]
      exact ⟨origin, horigin, hf origin _ hsums⟩
    · have hnone : more.filter (·.label = i) = [] := List.filter_eq_nil_iff.2 fun e he => by simp [hmore e he, hi]
      rw [hnone, List.append_nil]
      exact h.label i l' hl'

theorem pop_pop_append {S popped : Types} (h : popped.size = 2) : (S ++ popped).pop.pop = S := by
  apply Array.ext
  · simp [h]
  · intro i _ hi
    simp [Array.getElem_append_left hi]

end Body

theorem Body.Informed.call {b b' : Body} {origins : List Types} {edges : List Edge} (h : b.Informed origins edges)
    {c : Call} (hrun : c.perform b = .ok () b') :
    b'.Informed (origins ++ (c.origin? b).toList) (edges ++ (c.edge? b).toList) := by
  have hother : c ≠ .newLabel → c.label? = none → b'.labels = b.labels := by
    intro hnew hlabel
    have hlast := (Call.amends hnew hlabel b).labels
    rwa [hrun] at hlast
  cases c with
  | newLabel =>
    cases hrun
    simp only [Call.origin?, Call.edge?, Option.toList_none, Option.toList_some, List.append_nil]
    exact h.newLabel rfl
  | branch condition label =>
    obtain ⟨S, popped, l, hsize, hS, hl, hfits, rfl⟩ := (branch_behaves condition label).of_ok hrun
    simp only [Call.origin?, Call.edge?, Option.toList_none, Option.toList_some, List.append_nil, hS,
      pop_pop_append hsize]
    exact h.modify (f := fun l => { l.join S b.locals with referenced := true }) _ hl rfl (by simp)
      fun _ _ hsums => (hsums.join hfits).of_same rfl rfl
  | jump label =>
    obtain ⟨l, hl, hfits, rfl⟩ := (jump_behaves label).of_ok hrun
    simp only [Call.origin?, Call.edge?, Option.toList_none, Option.toList_some, List.append_nil]
    exact h.modify (f := fun l => { l.join b.stack b.locals with referenced := true }) _ hl rfl (by simp)
      fun _ _ hsums => (hsums.join hfits).of_same rfl rfl
  | bind label =>
    obtain ⟨l, hl, -, ⟨hreach, hfits, rfl⟩ | ⟨hreach, rfl⟩⟩ := (bind_behaves label).of_ok hrun
    · simp only [Call.origin?, Call.edge?, hreach, if_true, Option.toList_none, Option.toList_some, List.append_nil]
      exact h.modify (f := fun l => { l.join b.stack b.locals with position := some b.items.size }) _ hl rfl (by simp)
        fun _ _ hsums => (hsums.join hfits).of_same rfl rfl
    · -- Control does not come from the code before, so the place where the label is bound is no way to it.
      simp only [Call.origin?, Call.edge?, hreach, Bool.false_eq_true, if_false, Option.toList_none, List.append_nil]
      have hsame : ∀ origin ways, l.Sums origin ways →
          ({ l with position := some b.items.size } : Label).Sums origin (ways ++ []) := by
        intro origin ways hsums
        rw [List.append_nil]
        exact hsums.of_same rfl rfl
      simpa using h.modify (f := fun l => { l with position := some b.items.size }) [] hl rfl (by simp) hsame
  | _ => simpa [Call.origin?, Call.edge?] using h.of_labels (hother (by simp) rfl)

namespace Body

theorem Informed.performAll {b b' : Body} {origins : List Types} {edges : List Edge} {calls : List Call}
    (h : b.Informed origins edges) (hrun : Call.performAll calls b = .ok () b') :
    b'.Informed (origins ++ b.origins calls) (edges ++ b.edges calls) := by
  induction calls generalizing b origins edges with
  | nil =>
    cases hrun
    simpa [Body.origins, Body.edges] using h
  | cons c calls ih =>
    obtain ⟨m, hc, hrest⟩ := performAll_cons_eq_ok.1 hrun
    have hlater := ih (h.call hc) hrest
    simpa only [Body.origins, Body.edges, hc, lastState, List.append_assoc] using hlater

theorem informed_of_performAll {pool : ConstantPool} {thisClass : UInt16} {entryLocals : List VerificationType}
    {wantsFrames : Bool} {calls : List Call} {b : Body}
    (hrun : Call.performAll calls (Body.start pool thisClass entryLocals wantsFrames) = .ok () b) :
    b.Informed ((Body.start pool thisClass entryLocals wantsFrames).origins calls)
      ((Body.start pool thisClass entryLocals wantsFrames).edges calls) := by
  simpa using (informed_start pool thisClass entryLocals wantsFrames).performAll hrun

/-! ## Binding a label -/

theorem edges_append {b b' : Body} {calls : List Call} (hrun : Call.performAll calls b = .ok () b') (more : List Call) :
    b.edges (calls ++ more) = b.edges calls ++ b'.edges more := by
  induction calls generalizing b with
  | nil =>
    cases hrun
    rfl
  | cons c calls ih =>
    obtain ⟨m, hc, hrest⟩ := performAll_cons_eq_ok.1 hrun
    simp only [List.cons_append, edges, hc, lastState, ih hrest, List.append_assoc]

theorem bind_takes {b b' : Body} {label : Nat} (hbind : (Call.bind label).perform b = .ok () b') :
    ∃ l l' : Label, b.labels[label]? = some l ∧ b'.labels[label]? = some l' ∧ b'.stack = l'.stack.getD #[] ∧
      (b.reachable = true ∧ b'.locals = b.locals ∧ l'.locals = mergeLocals l.locals b.locals ∨
        b.reachable = false ∧ b'.locals = l'.locals) := by
  obtain ⟨l, hl, -, ⟨hreach, -, rfl⟩ | ⟨hreach, rfl⟩⟩ := (bind_behaves label).of_ok hbind
  · refine ⟨l, { l.join b.stack b.locals with position := some b.items.size }, hl, ?_, rfl, .inl ⟨hreach, rfl, rfl⟩⟩
    simp [Array.getElem?_modify, hl]
  · refine ⟨l, { l with position := some b.items.size }, hl, ?_, rfl, .inr ⟨hreach, rfl⟩⟩
    simp [Array.getElem?_modify, hl]

/-- A label that is bound has what its origin and all ways to it agree on, and the body has the operand stack of the
label. But it has the local variables of the label only if control does not arrive from the code before, or if nothing
that arrives from there disagrees with the origin or with another way. -/
theorem bind_takes_types_over_iff (pool : ConstantPool) (thisClass : UInt16) (entryLocals : List VerificationType)
    (wantsFrames : Bool) (calls : List Call) {label : Nat} {b b' : Body}
    (hrun : Call.performAll calls (Body.start pool thisClass entryLocals wantsFrames) = .ok () b)
    (hbind : (Call.bind label).perform b = .ok () b') :
    ∃ (origin : Types) (l : Label),
      ((Body.start pool thisClass entryLocals wantsFrames).origins calls)[label]? = some origin ∧
      b'.labels[label]? = some l ∧
      l.Sums origin (((Body.start pool thisClass entryLocals wantsFrames).edges (calls ++ [Call.bind label])).filter
        (·.label = label)) ∧
      b'.stack = l.stack.getD #[] ∧
      b'.locals = (if b.reachable then b.locals else l.locals) ∧
      ((∀ k, typeAt b'.locals k = typeAt l.locals k) ↔ b.reachable = false ∨
        ∀ (k : Nat) (t : VerificationType), t ≠ .top → b.locals[k]? = some t → origin[k]? = some t ∧
          ∀ e ∈ (Body.start pool thisClass entryLocals wantsFrames).edges calls, e.label = label →
            e.locals[k]? = some t) := by
  have hinformed := informed_of_performAll hrun
  obtain ⟨l, l', hl, hl', hstack, htakes⟩ := bind_takes hbind
  obtain ⟨origin, horigin, hsums⟩ := hinformed.label label l hl
  have hsums' : l'.Sums origin (((Body.start pool thisClass entryLocals wantsFrames).edges
      (calls ++ [Call.bind label])).filter (·.label = label)) := by
    obtain ⟨origin', horigin', hsums'⟩ := (hinformed.call hbind).label label l' hl'
    have hnone : (Call.bind label).origin? b = none := rfl
    rw [hnone, Option.toList_none, List.append_nil, horigin] at horigin'
    cases horigin'
    simpa [edges_append hrun, edges] using hsums'
  refine ⟨origin, l', horigin, hl', hsums', hstack, ?_⟩
  obtain ⟨hreach, hlocals, hmerge⟩ | ⟨hreach, hlocals⟩ := htakes
  · refine ⟨by rw [hlocals, if_pos hreach], ?_⟩
    rw [hlocals, hmerge, typeAt_eq_typeAt_iff fun k t ht h => ((getElem?_mergeLocals ht).1 h).2]
    simp only [hreach, Bool.true_eq_false, false_or]
    refine forall_congr' fun k => forall_congr' fun t => forall_congr' fun ht => forall_congr' fun harrives => ?_
    rw [getElem?_mergeLocals ht, hsums.locals, Edge.getElem?_common ht]
    simp [harrives, List.mem_filter]
  · simp [hlocals, hreach]

/-- A branch goes around code that gives the first variable another type. -/
def detour : List Call := [.newLabel, .pushInt 1, .pushInt 2, .branch .eq 0, .pushText "a", .store 0 .reference]

def rejoin : List Call := [.bind 0, .newLabel, .pushInt 1, .pushInt 2, .branch .eq 1, .bind 1]

/-- Where control arrives over the detour, its type stays; where control arrives by a jump, no type is left. -/
theorem bind_takes_types_over_iff_detour :
    (∃ (b b' : Body) (l : Label), Call.performAll detour (Body.start .empty 0 [.integer] true) = .ok () b ∧
        (Call.bind 0).perform b = .ok () b' ∧ b'.labels[0]? = some l ∧ ¬∀ k, typeAt b'.locals k = typeAt l.locals k) ∧
      ∃ (b b' : Body) (l : Label),
        Call.performAll (detour ++ [Call.jump 0]) (Body.start .empty 0 [.integer] true) = .ok () b ∧
        (Call.bind 0).perform b = .ok () b' ∧ b'.labels[0]? = some l ∧ ∀ k, typeAt b'.locals k = typeAt l.locals k := by
  have hedges : (Body.start .empty 0 [.integer] true).edges detour = [⟨0, #[], #[.integer]⟩] := by decide +kernel
  constructor
  · obtain ⟨_, hall⟩ : ∃ b' : Body, Call.performAll (detour ++ [Call.bind 0]) (Body.start .empty 0 [.integer] true) =
        .ok () b' := exists_ok_of_run' (by decide +kernel)
    obtain ⟨b, hrun, hrest⟩ := performAll_append_eq_ok.1 hall
    obtain ⟨b', hbind, -⟩ := performAll_cons_eq_ok.1 hrest
    have hb := attempt_of_performAll hrun
    have hreach : b.reachable = true := by
      rw [← hb]
      decide +kernel
    have hlocals : b.locals[0]? = some (.object 4) := by
      rw [← hb]
      decide +kernel
    obtain ⟨origin, l, -, hl, -, -, -, hiff⟩ := bind_takes_types_over_iff .empty 0 [.integer] true detour hrun hbind
    refine ⟨b, b', l, hrun, hbind, hl, ?_⟩
    rw [hiff, hedges, hreach]
    rintro (hfalse | hagree)
    · cases hfalse
    · cases (hagree 0 _ (by decide) hlocals).2 _ (.head _) rfl
  · obtain ⟨_, hall⟩ : ∃ b' : Body, Call.performAll ((detour ++ [Call.jump 0]) ++ [Call.bind 0])
        (Body.start .empty 0 [.integer] true) = .ok () b' := exists_ok_of_run' (by decide +kernel)
    obtain ⟨b, hrun, hrest⟩ := performAll_append_eq_ok.1 hall
    obtain ⟨b', hbind, -⟩ := performAll_cons_eq_ok.1 hrest
    have hreach : b.reachable = false := by
      rw [← attempt_of_performAll hrun]
      decide +kernel
    obtain ⟨origin, l, -, hl, -, -, -, hiff⟩ := bind_takes_types_over_iff .empty 0 [.integer] true _ hrun hbind
    exact ⟨b, b', l, hrun, hbind, hl, hiff.2 (.inl hreach)⟩

/-- The type that stays shows in the frame of the next label, while the label that was bound has left it out. -/
theorem bind_keeps_type_that_disagrees :
    ∃ b : Body, Call.performAll (detour ++ rejoin) (Body.start .empty 0 [.integer] true) = .ok () b ∧
      b.targetFrames b.address = [⟨8, [.top], []⟩, ⟨13, [.object 4], []⟩] := by
  obtain ⟨b, hrun⟩ : ∃ b : Body, Call.performAll (detour ++ rejoin) (Body.start .empty 0 [.integer] true) =
      .ok () b := exists_ok_of_run' (by decide +kernel)
  refine ⟨b, hrun, ?_⟩
  rw [← attempt_of_performAll hrun]
  decide +kernel

end Body

end KnightCode
