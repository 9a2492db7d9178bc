import KnightCode.Proofs.Pool
import KnightCode.Proofs.Translation

/-!
# Declarations

The table that the declarations of a program leave has one scope. Its variables have the slots from one on, in the order
of the declarations, and the first declaration of a name fixes its type.
-/

namespace KnightCode

theorem Register.find?_eq {κ α : Type} [Ord κ] [Std.TransOrd κ] [Std.LawfulEqOrd κ] [DecidableEq κ] {key : α → κ}
    (r : Register κ α key) (k : κ) : r.find? k = r.entries.toList.find? (fun a => key a = k) := by
  rw [find?]
  cases hp : r.position? k with
  | none =>
    have hnone := Register.position?_eq_none.1 hp
    rw [Option.bind_none, eq_comm, List.find?_eq_none]
    simpa using hnone
  | some i =>
    rw [r.position?_eq] at hp
    obtain ⟨hi, hkey, hfirst⟩ := List.findIdx?_eq_some_iff_getElem.1 hp
    have hget : r.entries.toList[i]? = some r.entries.toList[i] := List.getElem?_eq_getElem hi
    rw [Option.bind_some, ← Array.getElem?_toList, hget, eq_comm, List.find?_eq_some_iff_getElem]
    refine ⟨by simpa using hkey, i, hi, rfl, ?_⟩
    intro j hj
    simpa using hfirst j hj

namespace ScopeTable

theorem name_of_lookup? {t : ScopeTable} {name : String} {v : Variable} (h : t.lookup? name = some v) :
    v.name = name := by
  have hfind : ∀ scope : Scope, scope.find? name = some v → v.name = name := by
    intro scope hscope
    rw [Register.find?_eq] at hscope
    simpa using List.find?_some hscope
  rw [lookup?, Option.or_eq_some_iff] at h
  rcases h with h | ⟨-, h⟩
  · exact hfind _ h
  · obtain ⟨scope, -, hscope⟩ := List.exists_of_findSome?_eq_some h
    exact hfind scope hscope

/-- The table has one scope, whose variables have the slots from one on. -/
structure Flat (t : ScopeTable) : Prop where
  outer : t.outer = []
  next : t.nextSlot.toNat = t.current.length + 1
  slots : ∀ i v, t.current[i]? = some v → v.slot.toNat = i + 1
  names : (t.current.map Variable.name).Nodup

theorem flat_empty : empty.Flat :=
  ⟨rfl, by simp [empty, current], by simp [empty, current], by simp [empty, current]⟩

namespace Flat

variable {t : ScopeTable} (h : t.Flat)
include h

theorem lookup?_eq (name : String) : t.lookup? name = t.current.find? (fun v => v.name = name) := by
  rw [lookup?, h.outer, List.findSome?_nil, Option.or_none, Register.find?_eq, current]

theorem mem_of_lookup? {name : String} {v : Variable} (hv : t.lookup? name = some v) :
    v ∈ t.current ∧ v.name = name := by
  rw [h.lookup?_eq] at hv
  exact ⟨List.mem_of_find?_eq_some hv, by simpa using List.find?_some hv⟩

theorem lookup?_of_mem {v : Variable} (hv : v ∈ t.current) : t.lookup? v.name = some v := by
  rw [h.lookup?_eq]
  obtain ⟨i, hi, rfl⟩ := List.getElem_of_mem hv
  rw [List.find?_eq_some_iff_getElem]
  refine ⟨by simp, i, hi, rfl, ?_⟩
  intro j hj
  have hne : t.current[j].name ≠ t.current[i].name := by
    intro heq
    have hlt : j < (t.current.map Variable.name).length := by rw [List.length_map]; omega
    have hinj := (List.getElem?_inj (j := i) hlt h.names).1 (by simp [heq, hi, Nat.lt_trans hj hi])
    omega
  simpa using hne

/-- Slot zero is left to the arguments, and the number of slots fits a word. -/
theorem slot_range {v : Variable} (hv : v ∈ t.current) : 1 ≤ v.slot.toNat ∧ v.slot.toNat + 1 < 65536 := by
  obtain ⟨i, hi, rfl⟩ := List.getElem_of_mem hv
  have hslot := h.slots i _ (List.getElem?_eq_getElem hi)
  have hnext := h.next
  have hbound := t.nextSlot.toNat_lt
  omega

theorem slot_injective {v w : Variable} (hv : v ∈ t.current) (hw : w ∈ t.current) (heq : v.slot = w.slot) : v = w := by
  obtain ⟨i, hi, rfl⟩ := List.getElem_of_mem hv
  obtain ⟨j, hj, rfl⟩ := List.getElem_of_mem hw
  have hslot := h.slots i _ (List.getElem?_eq_getElem hi)
  have hslot' := h.slots j _ (List.getElem?_eq_getElem hj)
  have hij : i = j := by
    rw [heq] at hslot
    omega
  subst hij
  rfl

end Flat

inductive Declares (t : ScopeTable) (d : Declaration) : Except Fault Variable → ScopeTable → Prop
  | new {v : Variable} {t' : ScopeTable} (flat : t'.Flat) (current : t'.current = t.current ++ [v])
      (fresh : t.lookup? d.name = none) (name : v.name = d.name) (type : v.type = d.type) : Declares t d (.ok v) t'
  | again (known : (t.lookup? d.name).isSome) : Declares t d (.error (.duplicate d.name)) t
  | full : Declares t d (.error (.code (.tooManyVariables d.name))) t

theorem Flat.declare {t : ScopeTable} (h : t.Flat) (d : Declaration) :
    match ScopeTable.declare d.name d.type d.type.default t with
    | .ok v t' => Declares t d (.ok v) t'
    | .error f t' => Declares t d (.error f) t' := by
  have hnext := h.next
  have hbound := t.nextSlot.toNat_lt
  unfold ScopeTable.declare
  by_cases hfull : t.nextSlot = 65535
  · rw [if_pos hfull]
    exact .full
  rw [if_neg hfull]
  have hroom : t.nextSlot.toNat + 1 < 65536 := by
    have : t.nextSlot.toNat ≠ 65535 := fun heq => hfull (UInt16.toNat_inj.1 heq)
    omega
  cases hposition : t.innermost.position? d.name with
  | some i =>
    obtain ⟨v, hv, hname⟩ := Register.position?_eq_some hposition
    have hmem : v ∈ t.current := List.mem_of_getElem? hv
    have hlookup := h.lookup?_of_mem hmem
    rw [hname] at hlookup
    exact .again (by rw [hlookup]; rfl)
  | none =>
    have hfresh := Register.position?_eq_none.1 hposition
    have hcurrent : ({ t with
        innermost := t.innermost.push ⟨d.name, d.type, t.nextSlot, d.type.default⟩
        nextSlot := t.nextSlot + 1 } : ScopeTable).current =
          t.current ++ [⟨d.name, d.type, t.nextSlot, d.type.default⟩] := by
      simp [current]
    refine .new ⟨h.outer, ?_, ?_, ?_⟩ hcurrent ?_ rfl rfl
    · rw [hcurrent]
      simp only [UInt16.toNat_add, UInt16.toNat_one, List.length_append, List.length_singleton]
      omega
    · rw [hcurrent]
      intro i v hv
      rcases Nat.lt_or_ge i t.current.length with hlt | hge
      · rw [List.getElem?_append_left hlt] at hv
        exact h.slots i v hv
      · rw [List.getElem?_append_right hge] at hv
        obtain ⟨hi, rfl⟩ := List.getElem?_eq_some_iff.1 hv
        simp only [List.length_singleton] at hi
        simp only [List.getElem_singleton]
        omega
    · rw [hcurrent, List.map_append, List.nodup_append]
      refine ⟨h.names, by simp, ?_⟩
      rintro a ha b hb rfl
      obtain ⟨v, hv, rfl⟩ := List.mem_map.1 ha
      exact hfresh v hv (by simpa using hb)
    · rw [h.lookup?_eq, List.find?_eq_none]
      intro v hv
      simpa using hfresh v hv

structure Declared (t : ScopeTable) (decls : List Declaration) (t' : ScopeTable) (new : List Variable)
    (added : List Action) : Prop where
  flat : t'.Flat
  current : t'.current = t.current ++ new
  calls : callsOf added = new.flatMap defaultCalls
  rescope : rescope added t = .ok () t'
  readsInput : .readsInput ∉ added
  fail : ∀ f, .fail f ∈ added → ∃ name, f = .code (.tooManyVariables name)
  /-- The first declaration of a name fixes its type. -/
  types : (∀ f, .fail f ∉ added) → ∀ name, (t'.lookup? name).map (·.type) =
    ((t.lookup? name).map (·.type)).or ((decls.find? fun d => d.name = name).map (·.type))

theorem planDefault_actions (v : Variable) (p : Plan) :
    (planDefault v p).actions.toList = p.actions.toList ++ (defaultCalls v).map .call := by
  unfold planDefault defaultCalls
  cases v.type <;> simp [VarType.kind]

theorem planDefault_labels (v : Variable) (p : Plan) : (planDefault v p).labels = p.labels := by
  unfold planDefault
  cases v.type <;> simp

theorem callsOf_map_call (calls : List Call) : callsOf (calls.map .call) = calls := by
  simp [callsOf, Action.call?, List.filterMap_map, Function.comp_def]

theorem rescope_calls_append (calls : List Call) (added : List Action) :
    KnightCode.rescope (calls.map .call ++ added) = KnightCode.rescope added := by
  induction calls with
  | nil => rfl
  | cons c calls ih =>
    rw [List.map_cons, List.cons_append, ← ih]
    rfl

section Steps

variable {t t' last : ScopeTable} {d : Declaration} {decls : List Declaration} {new : List Variable}
  {added : List Action}

theorem Declared.nil (h : t.Flat) : Declared t [] t [] [] :=
  ⟨h, by simp, rfl, rfl, by simp, by simp, by simp⟩

theorem Declared.full (h : t.Flat) (name : String) :
    Declared t (d :: decls) t [] [.fail (.code (.tooManyVariables name))] :=
  ⟨h, by simp, rfl, rfl, by simp, by simp, by simp⟩

theorem Declared.again (known : (t.lookup? d.name).isSome) (rest : Declared t decls last new added) :
    Declared t (d :: decls) last new (.notice (.redeclared d.name d.type) :: added) where
  flat := rest.flat
  current := rest.current
  calls := rest.calls
  rescope := rest.rescope
  readsInput := by simpa using rest.readsInput
  fail := by simpa using rest.fail
  types := by
    intro hfail name
    rw [rest.types (by simpa using hfail)]
    by_cases heq : d.name = name
    · subst heq
      obtain ⟨v, hv⟩ := Option.isSome_iff_exists.1 known
      simp [hv]
    · simp [heq]

theorem Declared.fresh {v : Variable} (h : t.Flat) (flat : t'.Flat) (hcurrent : t'.current = t.current ++ [v])
    (fresh : t.lookup? d.name = none) (hname : v.name = d.name) (htype : v.type = d.type)
    (run : declare d.name d.type d.type.default t = .ok v t') (rest : Declared t' decls last new added) :
    Declared t (d :: decls) last (v :: new) (.declare d.name d.type :: ((defaultCalls v).map .call ++ added)) where
  flat := rest.flat
  current := by rw [rest.current, hcurrent, List.append_assoc, List.singleton_append]
  calls := by
    have hcons : callsOf (.declare d.name d.type :: ((defaultCalls v).map .call ++ added)) =
        callsOf ((defaultCalls v).map .call) ++ callsOf added := callsOf_append _ _
    rw [hcons, callsOf_map_call, rest.calls, List.flatMap_cons]
  rescope := by
    refine bind_eq_ok.2 ⟨(), t', ?_, ?_⟩
    · exact bind_eq_ok.2 ⟨v, t', run, rfl⟩
    · have hskip := rescope_calls_append (defaultCalls v) added
      exact (congrFun hskip t').trans rest.rescope
  readsInput := by simpa using rest.readsInput
  fail := by simpa using rest.fail
  types := by
    intro hfail name
    rw [rest.types (by simpa using hfail), flat.lookup?_eq, hcurrent, List.find?_append, ← h.lookup?_eq]
    by_cases heq : d.name = name
    · subst heq
      simp [fresh, hname, htype]
    · simp [heq, hname]

end Steps

theorem planDeclarations_spec (decls : List Declaration) {t : ScopeTable} (h : t.Flat) (p : Plan) :
    ∃ new added, Declared t decls (planDeclarations t decls p).1 new added ∧
      (planDeclarations t decls p).2.actions.toList = p.actions.toList ++ added ∧
      (planDeclarations t decls p).2.labels = p.labels := by
  induction decls generalizing t p with
  | nil => exact ⟨[], [], .nil h, by simp [planDeclarations], rfl⟩
  | cons d decls ih =>
    have hd := h.declare d
    unfold planDeclarations
    cases run : declare d.name d.type d.type.default t with
    | ok v t' =>
      simp only [run] at hd
      cases hd with
      | new flat hcurrent fresh hname htype =>
        obtain ⟨new, added, hrest, hactions, hlabels⟩ := ih flat (planDefault v (p.act (.declare d.name d.type)))
        refine ⟨_, _, .fresh h flat hcurrent fresh hname htype run hrest, ?_, ?_⟩
        · simp [hactions, planDefault_actions]
        · rw [hlabels, planDefault_labels, Plan.labels_act]
    | error f t' =>
      simp only [run] at hd
      cases hd with
      | again known =>
        obtain ⟨new, added, hrest, hactions, hlabels⟩ := ih h (p.act (.notice (.redeclared d.name d.type)))
        exact ⟨_, _, .again known hrest, by simp [hactions], by rw [hlabels, Plan.labels_act]⟩
      | full => exact ⟨_, _, .full h d.name, by simp, rfl⟩

end ScopeTable

/-! ## The other actions of a block

A block declares nothing and remembers values of declared variables only. It fails only for a variable that is not
declared, and only if that is fatal.
-/

/-- The actions that can be planned for a block. -/
def Setting.Allows (s : Setting) : Action → Prop
  | .fail f => s.policy = .fatal ∧ ∃ name, f = .undeclared name ∧ s.scope.lookup? name = none
  | .declare .. => False
  | .remember name _ => ∃ v, s.scope.lookup? name = some v
  | _ => True

/-- One plan goes on from another with actions that are allowed. -/
def Plan.Leads (allowed : Action → Prop) (p p' : Plan) : Prop :=
  ∃ added, p'.actions.toList = p.actions.toList ++ added ∧ ∀ a ∈ added, allowed a

namespace Plan.Leads

variable {allowed : Action → Prop} {p q r : Plan}

theorem refl (p : Plan) : p.Leads allowed p := ⟨[], by simp, by simp⟩

theorem trans (hpq : p.Leads allowed q) (hqr : q.Leads allowed r) : p.Leads allowed r := by
  obtain ⟨first, hfirst, hallowed⟩ := hpq
  obtain ⟨second, hsecond, hallowed'⟩ := hqr
  refine ⟨first ++ second, by rw [hsecond, hfirst, List.append_assoc], ?_⟩
  intro a ha
  rcases List.mem_append.1 ha with ha | ha
  · exact hallowed a ha
  · exact hallowed' a ha

theorem act (hpq : p.Leads allowed q) {a : Action} (ha : allowed a) : p.Leads allowed (q.act a) :=
  hpq.trans ⟨[a], by simp, by simpa using ha⟩

end Plan.Leads

namespace Setting

variable {s : Setting} {p q : Plan}

theorem leads_call (h : p.Leads s.Allows q) (c : Call) : p.Leads s.Allows (q.call c) := h.act trivial

theorem leads_notice (h : p.Leads s.Allows q) (n : Notice) : p.Leads s.Allows (q.act (.notice n)) := h.act trivial

theorem leads_remember (h : p.Leads s.Allows q) {name : String} {v : Variable} (hv : s.scope.lookup? name = some v)
    (value : Value) : p.Leads s.Allows (q.act (.remember v.name value)) := by
  refine h.act ⟨v, ?_⟩
  rwa [ScopeTable.name_of_lookup? hv]

theorem leads_newLabel (h : p.Leads s.Allows q) : p.Leads s.Allows q.newLabel :=
  h.trans ⟨[.call .newLabel], by simp, by simp [Allows]⟩

theorem leads_undeclared (h : p.Leads s.Allows q) {name : String} (hname : s.scope.lookup? name = none) :
    p.Leads s.Allows (s.undeclared name q) := by
  unfold undeclared
  cases hp : s.policy with
  | fatal => exact h.act ⟨hp, name, rfl, hname⟩
  | report => exact h.act trivial

theorem leads_planVariable (h : p.Leads s.Allows q) (name : String) : p.Leads s.Allows (planVariable s name q) := by
  unfold planVariable
  split
  · exact leads_call h _
  · next hname => exact leads_call (leads_undeclared h hname) _

theorem leads_expr (e : Expr) (h : p.Leads s.Allows q) : p.Leads s.Allows (e.plan s q) := by
  induction e generalizing q with
  | number value => exact leads_call h _
  | name x => exact leads_planVariable h x
  | paren inner ih => exact ih h
  | arithmetic op left right ihl ihr => exact leads_call (ihr (ihl h)) _
  | compare op left right ihl ihr =>
    have hoperands := ihr (ihl (leads_newLabel (leads_newLabel h)))
    exact leads_call (leads_call (leads_call (leads_call (leads_call (leads_call hoperands _) _) _) _) _) _

theorem leads_operand (o : Operand) (h : p.Leads s.Allows q) : p.Leads s.Allows (o.plan s q) := by
  cases o with
  | number value => exact leads_call h _
  | name x => exact leads_planVariable h x

theorem leads_test (t : Test) (condition : Condition) (label : Nat) (h : p.Leads s.Allows q) :
    p.Leads s.Allows (t.plan s condition label q) :=
  leads_call (leads_operand t.right (leads_operand t.left h)) _

theorem leads_withVariable (h : p.Leads s.Allows q) (name : String) {next : Variable → Plan}
    (hnext : ∀ v, s.scope.lookup? name = some v → p.Leads s.Allows (next v)) :
    p.Leads s.Allows (s.withVariable name q next) := by
  unfold withVariable
  split
  · next v hv => exact hnext v hv
  · next hname => exact leads_undeclared h hname

theorem leads_read (h : p.Leads s.Allows q) (v : Variable) : p.Leads s.Allows (planRead s.className v q) := by
  have hline := leads_call (leads_call (h.act (a := .readsInput) trivial) (.getStatic (Library.console s.className)))
    (.invokeVirtual Library.nextLine)
  unfold planRead
  cases v.type with
  | integer => exact leads_call (leads_call (leads_call hline _) _) _
  | text => exact leads_call hline _

theorem leads_setText (h : p.Leads s.Allows q) {name : String} {v : Variable} (hv : s.scope.lookup? name = some v)
    (text : String) : p.Leads s.Allows (planSetText v text q) := by
  unfold planSetText
  split
  · exact leads_remember (leads_call (leads_call (leads_notice h _) _) _) hv _
  · exact leads_remember (leads_call (leads_call h _) _) hv _

theorem leads_setExpr (h : p.Leads s.Allows q) {name : String} {v : Variable} (hv : s.scope.lookup? name = some v)
    (value : Expr) : p.Leads s.Allows (planSetExpr s v value q) := by
  have hstored : ∀ q', p.Leads s.Allows q' →
      p.Leads s.Allows ((value.plan s q').call (.store v.slot v.type.kind)) :=
    fun q' hq' => leads_call (leads_expr value hq') _
  have hnoted : ∀ type, p.Leads s.Allows
      (if type ≠ v.type then q.act (.notice (.typesDiffer type v.type v.name)) else q) := by
    intro type
    split
    · exact leads_notice h _
    · exact h
  unfold planSetExpr
  split
  · exact leads_remember (hstored _ (hnoted _)) hv _
  · exact hstored _ (hnoted _)

theorem allows_nested : s.nested.Allows = s.Allows := by
  funext a
  have hpolicy : s.nested.policy = s.policy := rfl
  cases a <;> simp [Allows, lookup?_nested, hpolicy]

theorem leads_block (body : List Stmt) : ∀ (s : Setting) (p q : Plan), p.Leads s.Allows q →
    p.Leads s.Allows (planBlock s body q) := by
  induction body using block_induction
    (P := fun stmt => ∀ (s : Setting) (p q : Plan), p.Leads s.Allows q → p.Leads s.Allows (stmt.plan s q)) with
  | printText text s p q h => exact leads_call (leads_call (leads_call h _) _) _
  | printName name s p q h =>
    exact leads_withVariable h name fun v _ => leads_call (leads_call (leads_call h _) _) _
  | read name s p q h => exact leads_withVariable h name fun v _ => leads_read h v
  | setText name text s p q h => exact leads_withVariable h name fun v hv => leads_setText h hv text
  | setExpr name value s p q h => exact leads_withVariable h name fun v hv => leads_setExpr h hv value
  | ifThen test thenBody ih s p q h =>
    have htest := leads_test test test.op.condition q.labels (leads_newLabel (leads_newLabel h))
    have hbody := ih s.nested p _
      (allows_nested ▸ leads_call (leads_call htest (.jump (q.labels + 1))) (.bind q.labels))
    exact leads_call (allows_nested ▸ hbody) _
  | ifElse test thenBody elseBody ihThen ihElse s p q h =>
    have htest := leads_test test test.op.condition q.labels (leads_newLabel (leads_newLabel h))
    have helse := ihElse s.nested p _ (allows_nested ▸ htest)
    have hthen := ihThen s.nested p _ (leads_call (leads_call helse (.jump (q.labels + 1))) (.bind q.labels))
    exact leads_call (allows_nested ▸ hthen) _
  | whileDo test body ih s p q h =>
    have htest := leads_test test test.op.condition.negate (q.labels + 1)
      (leads_call (leads_newLabel (leads_newLabel h)) (.bind q.labels))
    have hbody := ih s.nested p _ (allows_nested ▸ htest)
    exact leads_call (leads_call (allows_nested ▸ hbody) _) _
  | nil =>
    intro s p q h
    exact h
  | cons stmt rest ihStmt ihRest =>
    intro s p q h
    exact ihRest s p _ (ihStmt s p q h)

end Setting

theorem Scope.toList_setAt (s : Scope) (i : Nat) (value : Value) :
    (s.setAt i value).entries.toList = s.entries.toList.modify i ({ · with value }) := by
  simp [Scope.setAt, Register.modify, Array.toList_modify]

theorem map_modify_of_eq {α β : Type} (l : List α) (i : Nat) (f : α → α) {g : α → β} (h : ∀ a, g (f a) = g a) :
    (l.modify i f).map g = l.map g := by
  apply List.ext_getElem?
  intro j
  simp only [List.getElem?_map, List.getElem?_modify]
  cases l[j]? with
  | none => rfl
  | some a => by_cases hij : i = j <;> simp [hij, h]

theorem ScopeTable.Flat.set {t : ScopeTable} (h : t.Flat) {name : String} {v : Variable}
    (hv : t.lookup? name = some v) (value : Value) :
    ∃ t', ScopeTable.set name value t = .ok () t' ∧ t'.Flat ∧
      t'.current.map Variable.name = t.current.map Variable.name := by
  obtain ⟨hmem, hname⟩ := h.mem_of_lookup? hv
  cases hposition : t.innermost.position? name with
  | none => exact absurd hname (Register.position?_eq_none.1 hposition v hmem)
  | some i =>
    have hcurrent : ({ t with innermost := t.innermost.setAt i value } : ScopeTable).current =
        t.current.modify i ({ · with value }) := t.innermost.toList_setAt i value
    have hnames : (t.current.modify i ({ · with value })).map Variable.name = t.current.map Variable.name :=
      map_modify_of_eq _ _ _ fun _ => rfl
    refine ⟨{ t with innermost := t.innermost.setAt i value }, ?_, ⟨h.outer, ?_, ?_, ?_⟩, ?_⟩
    · simp [ScopeTable.set, hposition]
    · rw [hcurrent, List.length_modify]
      exact h.next
    · rw [hcurrent]
      intro j w hw
      rw [List.getElem?_modify] at hw
      obtain ⟨w', hw', rfl⟩ := Option.map_eq_some_iff.1 hw
      have hslot := h.slots j w' hw'
      by_cases hij : i = j <;> simpa [hij] using hslot
    · rw [hcurrent, hnames]
      exact h.names
    · rw [hcurrent, hnames]

theorem ScopeTable.Flat.lookup?_eq_none {t : ScopeTable} (h : t.Flat) {name : String} :
    t.lookup? name = none ↔ name ∉ t.current.map Variable.name := by
  rw [h.lookup?_eq, List.find?_eq_none]
  simp

theorem Setting.rescope_of_allows {s : Setting} {actions : List Action} (allowed : ∀ a ∈ actions, s.Allows a)
    {t : ScopeTable} (flat : t.Flat) (same : ∀ name, t.lookup? name = none → s.scope.lookup? name = none) :
    ∃ t', rescope actions t = .ok () t' := by
  induction actions generalizing t with
  | nil => exact ⟨t, rfl⟩
  | cons a actions ih =>
    have ha := allowed a (.head _)
    have hrest := fun b hb => allowed b (.tail _ hb)
    -- only `remember` does anything to the table
    have hstep : ∃ m : ScopeTable, a.onScope t = .ok () m ∧ m.Flat ∧
        ∀ name, m.lookup? name = none → s.scope.lookup? name = none := by
      cases a with
      | declare name type => exact ha.elim
      | remember name value =>
        obtain ⟨v, hv⟩ := ha
        cases hlookup : t.lookup? name with
        | none => rw [same name hlookup] at hv; cases hv
        | some w =>
          obtain ⟨m, hm, hflat, hnames⟩ := flat.set hlookup value
          refine ⟨m, hm, hflat, fun name hname => same name ?_⟩
          rwa [flat.lookup?_eq_none, ← hnames, ← hflat.lookup?_eq_none]
      | call c => exact ⟨t, rfl, flat, same⟩
      | notice n => exact ⟨t, rfl, flat, same⟩
      | readsInput => exact ⟨t, rfl, flat, same⟩
      | fail f => exact ⟨t, rfl, flat, same⟩
    obtain ⟨m, hm, hflat, hsame⟩ := hstep
    obtain ⟨t', ht'⟩ := ih hrest hflat hsame
    exact ⟨t', bind_eq_ok.2 ⟨(), m, hm, ht'⟩⟩

end KnightCode
