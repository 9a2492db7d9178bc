import KnightCode.Proofs.Labels
import KnightCode.Proofs.Typing

/-!
# Discipline of the generated calls

The calls of an expression leave one more value on the operand stack, those of a statement leave the stack as it was,
and on the way every call finds what it needs: only the constant pool can make one fail. If the program is well typed,
every call also finds operands of the right types, and the types of the local variables never change.
-/

namespace KnightCode

/-! ## Typed calls -/

def VerificationType.HasKind (t : VerificationType) : ValueKind → Prop
  | .int => t = .integer
  | .reference => ∃ i, t = .object i

def MemberRef.Accepts (m : MemberRef) (pool : ConstantPool) (args : Types) : Prop :=
  ∃ params result, JavaType.ofMethodDescriptor? m.descriptor = some (params, result) ∧ args.size = params.length ∧
    ∀ p ∈ params.zip args.toList, p.1.Stands pool p.2

/-- The instruction of the call can be reached and finds operands of the right types. Constructors do not occur in the
body of a program. -/
def Call.Typed (b : Body) : Call → Prop
  | .newLabel => True
  | .bind label => b.reachable = true ∨ ∃ l, b.labels[label]? = some l ∧ l.referenced = true
  | .pushInt _ | .pushText _ | .getStatic _ | .jump _ => b.reachable = true
  | .load slot kind => b.reachable = true ∧ ∃ t, b.locals[slot.toNat]? = some t ∧ t.HasKind kind
  | .store _ kind => b.reachable = true ∧ ∃ S : Types, ∃ t, b.stack = S.push t ∧ t.HasKind kind
  | .arithmetic _ | .branch .. => b.reachable = true ∧ ∃ S : Types, b.stack = (S.push .integer).push .integer
  | .invokeVirtual m => b.reachable = true ∧ ∃ S args : Types, ∃ i, b.stack = S.push (.object i) ++ args ∧
      b.pool.IsClass i m.owner ∧ m.Accepts b.pool args
  | .invokeStatic m => b.reachable = true ∧ ∃ S args : Types, b.stack = S ++ args ∧ m.Accepts b.pool args
  | .putStatic _ | .invokeSpecial _ | .new _ | .dup => False

/-- A value that is stored has the type that the local variable has already. -/
def Call.Keeps (b : Body) : Call → Prop
  | .store slot _ => b.stack.back? = b.locals[slot.toNat]?
  | _ => True

/-- The local variables have the types `L`, here and at all labels, unless there is no label yet. -/
def Body.Settled (L : Types) (b : Body) : Prop :=
  ∀ (i : Nat) (l : Label), b.labels[i]? = some l → l.locals = L ∧ b.locals = L

theorem Body.settled_of_no_labels {b : Body} (h : b.labels = #[]) (L : Types) : b.Settled L := by
  intro i l hl
  simp [h] at hl

/-- A run of typed calls, with settled local variables on the way. -/
inductive TypedRun (L : Types) : List Call → Body → Body → Prop
  | nil {b : Body} (settled : b.Settled L) : TypedRun L [] b b
  | cons {c : Call} {calls : List Call} {b m b' : Body} (settled : b.Settled L) (typed : c.Typed b)
      (first : c.Effect b m) (rest : TypedRun L calls m b') : TypedRun L (c :: calls) b b'

theorem TypedRun.append {L : Types} {first second : List Call} {b m b' : Body} (hfirst : TypedRun L first b m)
    (hsecond : TypedRun L second m b') : TypedRun L (first ++ second) b b' := by
  induction hfirst with
  | nil _ => exact hsecond
  | cons settled typed effect _ ih => exact .cons settled typed effect (ih hsecond)

theorem TypedRun.performs {L : Types} {calls : List Call} {b b' : Body} (h : TypedRun L calls b b') :
    Performs calls b b' := by
  induction h with
  | nil _ => exact .nil _
  | cons _ _ first _ ih => exact .cons first ih

/-! ## Local variables -/

def VarType.Stands (type : VarType) (pool : ConstantPool) (t : VerificationType) : Prop :=
  match type with
  | .integer => t = .integer
  | .text => ∃ i, t = .object i ∧ pool.IsClass i Body.stringClass

theorem VarType.Stands.mono {type : VarType} {pool later : ConstantPool} {t : VerificationType}
    (hext : pool.Extends later) (h : type.Stands pool t) : type.Stands later t := by
  cases type with
  | integer => exact h
  | text =>
    obtain ⟨i, rfl, hi⟩ := h
    exact ⟨i, rfl, hi.mono hext⟩

/-- The class of texts has one index only. -/
theorem VarType.Stands.unique {type : VarType} {pool : ConstantPool} (wf : pool.WellFormed) {t u : VerificationType}
    (ht : type.Stands pool t) (hu : type.Stands pool u) : t = u := by
  cases type with
  | integer => exact ht.trans (Eq.symm hu)
  | text =>
    obtain ⟨i, rfl, hi⟩ := ht
    obtain ⟨j, rfl, hj⟩ := hu
    rw [hi.unique wf hj]

theorem VarType.Stands.hasKind {type : VarType} {pool : ConstantPool} {t : VerificationType}
    (h : type.Stands pool t) : t.HasKind type.kind := by
  cases type with
  | integer => exact h
  | text =>
    obtain ⟨i, rfl, -⟩ := h
    exact ⟨i, rfl⟩

/-- The local variables have the types `L`, here and at all labels, and these are the types of the variables. -/
structure Steady (find : Lookup) (L : Types) (b : Body) : Prop where
  locals : b.locals = L
  labels : ∀ (i : Nat) (l : Label), b.labels[i]? = some l → l.locals = L
  holds : ∀ name v, find name = some v → ∃ t, L[v.slot.toNat]? = some t ∧ v.type.Stands b.pool t

theorem Steady.settled {find : Lookup} {L : Types} {b : Body} (h : Steady find L b) : b.Settled L :=
  fun i l hl => ⟨h.labels i l hl, h.locals⟩

theorem mergeLocals_self (types : Types) : mergeLocals types types = types := by
  apply Array.ext_getElem?
  intro i
  rw [mergeLocals, Array.getElem?_zipWith]
  cases types[i]? <;> simp

theorem Body.assigned_self {b : Body} {slot : UInt16} {t : VerificationType} (h : b.locals[slot.toNat]? = some t) :
    (b.assigned slot t).locals = b.locals := by
  obtain ⟨hlt, hget⟩ := Array.getElem?_eq_some_iff.1 h
  apply Array.ext_getElem?
  intro i
  have hmissing : slot.toNat + 1 - b.locals.size = 0 := by omega
  simp only [Body.assigned, hmissing, Array.replicate_zero, Array.append_empty, Array.getElem?_setIfInBounds]
  split
  · next heq => simp [← heq, hlt, hget]
  · rfl

theorem Steady.holds_later {find : Lookup} {L : Types} {b b' : Body} (h : Steady find L b) (hc : b.Continues b') :
    ∀ name v, find name = some v → ∃ t, L[v.slot.toNat]? = some t ∧ v.type.Stands b'.pool t := by
  intro name v hv
  obtain ⟨t, ht, hstands⟩ := h.holds name v hv
  exact ⟨t, ht, hstands.mono hc.pool.1⟩

theorem Steady.of_same {find : Lookup} {L : Types} {b b' : Body} (h : Steady find L b) (hc : b.Continues b')
    (hlocals : b'.locals = b.locals) (hlabels : b'.labels = b.labels) : Steady find L b' :=
  ⟨hlocals.trans h.locals, by rw [hlabels]; exact h.labels, h.holds_later hc⟩

theorem Steady.of_modify {find : Lookup} {L : Types} {b b' : Body} (h : Steady find L b) (hc : b.Continues b')
    (hlocals : b'.locals = L) {label : Nat} {f : Label → Label} (hlabels : b'.labels = b.labels.modify label f)
    (hf : ∀ l : Label, l.locals = L → (f l).locals = L) : Steady find L b' := by
  refine ⟨hlocals, ?_, h.holds_later hc⟩
  intro i l hl
  rw [hlabels] at hl
  obtain ⟨-, l', hl', rfl⟩ | ⟨-, hl⟩ := getElem?_modify_cases hl
  · exact hf l' (h.labels label l' hl')
  · exact h.labels i l hl

theorem Call.Effect.steady {find : Lookup} {L : Types} {c : Call} {b b' : Body} (wf : b.pool.WellFormed)
    (h : c.Effect b b') (typed : c.Typed b) (keeps : c.Keeps b) (hs : Steady find L b) : Steady find L b' := by
  have hc := h.continues wf
  have hjoin : ∀ (l : Label) (S : Types), l.locals = L → (l.join S b.locals).locals = L := by
    intro l S hl
    rw [Label.join, hl, hs.locals, mergeLocals_self]
  cases c with
  | newLabel =>
    obtain rfl := h
    refine ⟨hs.locals, ?_, hs.holds⟩
    intro i l hl
    obtain rfl | hl := getElem?_push_cases hl
    · exact hs.locals
    · exact hs.labels i l hl
  | branch condition label =>
    obtain ⟨S, popped, l, -, -, -, -, rfl⟩ := h
    exact hs.of_modify (f := fun l => { l.join S b.locals with referenced := true }) hc hs.locals rfl
      fun l hl => hjoin l S hl
  | jump label =>
    obtain ⟨l, -, -, rfl⟩ := h
    exact hs.of_modify (f := fun l => { l.join b.stack b.locals with referenced := true }) hc hs.locals rfl
      fun l hl => hjoin l b.stack hl
  | bind label =>
    obtain ⟨l, hl, -, ⟨-, -, rfl⟩ | ⟨-, rfl⟩⟩ := h
    · exact hs.of_modify (f := fun l => { l.join b.stack b.locals with position := some b.items.size }) hc hs.locals rfl
        fun l hl => hjoin l b.stack hl
    · exact hs.of_modify (f := fun l => { l with position := some b.items.size }) hc (hs.labels label l hl) rfl
        fun _ => id
  | store slot kind =>
    -- The variable has the type of the value already.
    obtain ⟨i, -, hadvances, t, ht, hlocals⟩ := h.advances rfl rfl
    have keeps : b.stack.back? = b.locals[slot.toNat]? := keeps
    rw [keeps] at ht
    exact hs.of_same hc (hlocals.trans (Body.assigned_self ht)) hadvances.labels
  | invokeSpecial m => exact typed.elim
  | _ =>
    obtain ⟨i, -, hadvances, hlocals⟩ := h.advances rfl rfl
    exact hs.of_same hc hlocals hadvances.labels

/-! ## Safe calls -/

/-- Only the constant pool can make one of the calls fail, and if none fails, the body that they leave is `good`. If
`typed` holds, the calls are typed and the local variables keep their types. -/
def Safe (typed : Prop) (find : Lookup) (L : Types) (calls : List Call) (b : Body) (good : Body → Prop) : Prop :=
  b.pool.WellFormed → (typed → Steady find L b) →
    Yields (Call.performAll calls) b
      (fun _ b' => Performs calls b b' ∧ (typed → Steady find L b' ∧ TypedRun L calls b b') ∧ good b') Fault.IsPool

namespace Safe

variable {typed typed' : Prop} {find : Lookup} {L : Types} {calls first second : List Call} {c : Call} {b : Body}
  {good good' mid : Body → Prop}

theorem nil (h : good b) : Safe typed find L [] b good :=
  fun _ hsteady => Yields.of_pure ⟨.nil b, fun ht => ⟨hsteady ht, .nil (hsteady ht).settled⟩, h⟩

theorem call (ready : c.Ready b) (htyped : typed → Steady find L b → c.Typed b ∧ c.Keeps b)
    (hgood : ∀ b', c.Effect b b' → (typed → Steady find L b) → good b') : Safe typed find L [c] b good := by
  intro wf hsteady
  have hrun : Call.performAll [c] = (do c.perform; pure ()) := rfl
  rw [hrun]
  refine ((c.behaves wf).mono (fun _ _ => id) fun f hf => hf.resolve_right (not_not_intro ready)).bind ?_
  intro _ b' heffect
  refine Yields.of_pure ⟨.cons heffect (.nil b'), ?_, hgood b' heffect hsteady⟩
  intro ht
  obtain ⟨hc, hkeeps⟩ := htyped ht (hsteady ht)
  have hlater := heffect.steady wf hc hkeeps (hsteady ht)
  exact ⟨hlater, .cons (hsteady ht).settled hc heffect (.nil hlater.settled)⟩

theorem append (hfirst : Safe typed find L first b mid)
    (hsecond : ∀ m, Performs first b m → b.Continues m → mid m → Safe typed find L second m good) :
    Safe typed find L (first ++ second) b good := by
  intro wf hsteady
  rw [Call.performAll_append]
  refine (hfirst wf hsteady).bind ?_
  rintro _ m ⟨hperforms, hm, hmid⟩
  have hc := hperforms.continues wf
  refine (hsecond m hperforms hc hmid hc.wellFormed fun ht => (hm ht).1).imp ?_
  rintro _ b' ⟨hperforms', hb', hgood⟩
  refine ⟨performs_append.2 ⟨m, hperforms, hperforms'⟩, ?_, hgood⟩
  intro ht
  exact ⟨(hb' ht).1, (hm ht).2.append (hb' ht).2⟩

theorem imp (h : Safe typed find L calls b good) (hgood : ∀ b', Performs calls b b' → good b' → good' b') :
    Safe typed find L calls b good' := by
  intro wf hsteady
  refine (h wf hsteady).imp ?_
  rintro _ b' ⟨hperforms, htyped, hb'⟩
  exact ⟨hperforms, htyped, hgood b' hperforms hb'⟩

theorem cons (ready : c.Ready b) (htyped : typed → Steady find L b → c.Typed b ∧ c.Keeps b)
    (hrest : ∀ m, c.Effect b m → (typed → Steady find L b) → Safe typed find L calls m good) :
    Safe typed find L (c :: calls) b good := by
  have hcall : Safe typed find L [c] b fun m => Safe typed find L calls m good := call ready htyped hrest
  exact hcall.append fun _ _ _ hm => hm

end Safe

/-! ## Expressions -/

def Lookup.typing (find : Lookup) : Typing := fun name => (find name).map (·.type)

/-- Control can reach the end, and there is one more value on the operand stack, if `typed` holds a value of a type. -/
def Pushes (typed : Prop) (type : VarType) (b b' : Body) : Prop :=
  b'.reachable = true ∧ ∃ t, b'.stack = b.stack.push t ∧ (typed → type.Stands b'.pool t)

section Expressions

variable {typed : Prop} {find : Lookup} {L : Types} {b : Body}

theorem pushInt_safe (value : Int32) (type : VarType) (htype : typed → type = .integer) (hreach : b.reachable = true) :
    Safe typed find L [.pushInt value] b (Pushes typed type b) := by
  refine .call trivial (fun _ _ => ⟨hreach, trivial⟩) ?_
  rintro b' ⟨pool, i, -, -, rfl⟩ -
  exact ⟨hreach, .integer, rfl, fun ht => by rw [htype ht]; rfl⟩

theorem load_safe {name : String} {v : Variable} (hv : find name = some v) {type : VarType}
    (htype : typed → v.type = type) (hreach : b.reachable = true) :
    Safe typed find L [.load v.slot v.type.kind] b (Pushes typed type b) := by
  refine .call trivial ?_ ?_
  · intro _ hs
    obtain ⟨t, ht, hstands⟩ := hs.holds name v hv
    exact ⟨⟨hreach, t, by rw [hs.locals, ht], hstands.hasKind⟩, trivial⟩
  · rintro b' ⟨pool, t, hgrows, hloads, rfl⟩ hsteady
    refine ⟨hreach, t, rfl, ?_⟩
    intro ht
    obtain rfl := htype ht
    obtain ⟨t', ht', hstands⟩ := (hsteady ht).holds name v hv
    cases htype : v.type with
    | integer =>
      rw [htype] at hloads
      exact hloads
    | text =>
      rw [htype] at hloads hstands
      obtain ⟨i, rfl, hi⟩ := hstands
      have hlocal : b.locals[v.slot.toNat]? = some (.object i) := by rw [(hsteady ht).locals, ht']
      simp only [VarType.kind, Body.Loads, hlocal, Option.getD_some, VerificationType.isReference, if_true,
        Option.some.injEq] at hloads
      obtain rfl := hloads
      exact ⟨i, rfl, hi.mono hgrows.1⟩

theorem variableCalls_safe (name : String) (type : VarType) (htype : typed → find.typing name = some type)
    (hreach : b.reachable = true) : Safe typed find L (variableCalls find name) b (Pushes typed type b) := by
  unfold variableCalls
  cases hv : find name with
  | none =>
    refine pushInt_safe 0 type (fun ht => ?_) hreach
    have := htype ht
    simp [Lookup.typing, hv] at this
  | some v =>
    refine load_safe hv (fun ht => ?_) hreach
    have := htype ht
    simpa [Lookup.typing, hv] using this

end Expressions

/-! ## Labels -/

/-- The label is not bound yet. No branch goes to it, or branches do whose operand stack is known. -/
def Body.Waits (b : Body) (i : Nat) (stack : Option Types) : Prop :=
  ∃ l, b.labels[i]? = some l ∧ l.position = none ∧ l.stack = stack ∧ (stack ≠ none → l.referenced = true)

theorem Body.Waits.lt {b : Body} {i : Nat} {stack : Option Types} (h : b.Waits i stack) : i < b.labels.size := by
  obtain ⟨l, hl, -⟩ := h
  exact (Array.getElem?_eq_some_iff.1 hl).1

theorem Performs.waits {calls : List Call} {b b' : Body} (h : Performs calls b b') {i : Nat} {stack : Option Types}
    (hother : ∀ c ∈ calls, c.label? ≠ some i) (hw : b.Waits i stack) : b'.Waits i stack := by
  unfold Body.Waits
  rw [h.labels_other hw.lt hother]
  exact hw

/-- The ways to the label that are known, if any, have the operand stack `S`. -/
def Agrees (stack : Option Types) (S : Types) : Prop := stack = none ∨ stack = some S

theorem Agrees.fits {l : Label} {S : Types} (h : Agrees l.stack S) : l.Fits S := by
  intro expected hexpected
  rcases h with h | h
  · rw [h] at hexpected
    cases hexpected
  · rw [h] at hexpected
    cases hexpected
    rfl

section Labels

variable {typed : Prop} {find : Lookup} {L : Types} {b : Body} {i j : Nat} {stack : Option Types} {S : Types}

theorem twoLabels_safe :
    Safe typed find L [.newLabel, .newLabel] b fun m =>
      m.Waits b.labels.size none ∧ m.Waits (b.labels.size + 1) none ∧ m.labels.size = b.labels.size + 2 ∧
        m.stack = b.stack ∧ m.reachable = b.reachable := by
  refine .cons trivial (fun _ _ => ⟨trivial, trivial⟩) ?_
  rintro m rfl -
  refine .call trivial (fun _ _ => ⟨trivial, trivial⟩) ?_
  rintro m rfl -
  refine ⟨⟨⟨none, false, b.locals, none⟩, ?_, rfl, rfl, by simp⟩, ⟨⟨none, false, b.locals, none⟩, ?_, rfl, rfl, by simp⟩,
    by simp, rfl, rfl⟩
  · rw [Array.getElem?_push, if_neg (by simp), Array.getElem?_push, if_pos rfl]
  · rw [Array.getElem?_push, if_pos (by simp)]

theorem branch_safe (condition : Condition) {t u : VerificationType} (hstack : b.stack = (S.push t).push u)
    (hint : typed → t = .integer ∧ u = .integer) (hreach : b.reachable = true) (hw : b.Waits i stack)
    (hagrees : Agrees stack S) :
    Safe typed find L [.branch condition i] b fun m => m.reachable = true ∧ m.stack = S ∧ m.Waits i (some S) := by
  obtain ⟨l, hl, hposition, rfl, -⟩ := hw
  have hsplit : b.stack = S ++ #[t, u] := by rw [hstack]; apply Array.ext'; simp
  refine .call ⟨S, #[t, u], l, rfl, hsplit, hl, hagrees.fits⟩ ?_ ?_
  · intro ht _
    obtain ⟨rfl, rfl⟩ := hint ht
    exact ⟨⟨hreach, S, hstack⟩, trivial⟩
  · rintro m ⟨S', popped, l', hsize, hS', hl', -, rfl⟩ -
    obtain ⟨rfl, -⟩ := Array.append_inj' (hsplit.symm.trans hS') (by rw [hsize]; rfl)
    rw [hl] at hl'
    cases hl'
    exact ⟨hreach, rfl, { l.join S b.locals with referenced := true }, 
      by simp [Body.branched, Body.added, Array.getElem?_modify, hl], hposition, rfl, fun _ => rfl⟩

theorem bind_safe (hreach : b.reachable = true) (hw : b.Waits i stack) (hagrees : Agrees stack b.stack) :
    Safe typed find L [.bind i] b fun m =>
      m.reachable = true ∧ m.stack = b.stack ∧ ∃ l, m.labels[i]? = some l ∧ l.stack = some b.stack := by
  obtain ⟨l, hl, hposition, rfl, -⟩ := hw
  refine .call ⟨l, hl, hposition, fun _ => hagrees.fits⟩ (fun _ _ => ⟨.inl hreach, trivial⟩) ?_
  rintro m ⟨l', hl', -, ⟨-, -, rfl⟩ | ⟨hunreach, -⟩⟩ -
  · rw [hl] at hl'
    cases hl'
    exact ⟨hreach, rfl, { l.join b.stack b.locals with position := some b.items.size },
      by simp [Array.getElem?_modify, hl], rfl⟩
  · rw [hreach] at hunreach
    cases hunreach

theorem detour_safe (hij : i ≠ j) (hreach : b.reachable = true) {l : Label} (hl : b.labels[i]? = some l)
    (hfits : l.Fits b.stack) (hw : b.Waits j (some S)) :
    Safe typed find L [.jump i, .bind j] b fun m =>
      m.reachable = true ∧ m.stack = S ∧ (l.position = none → m.Waits i (some b.stack)) := by
  obtain ⟨k, hk, hposition, hkstack, hreferenced⟩ := hw
  refine .cons ⟨l, hl, hfits⟩ (fun _ _ => ⟨hreach, trivial⟩) ?_
  rintro m ⟨l', hl', -, rfl⟩ -
  rw [hl] at hl'
  cases hl'
  have hkept : (b.labels.modify i fun l => { l.join b.stack b.locals with referenced := true })[j]? = some k := by
    rw [Array.getElem?_modify, if_neg hij, hk]
  refine .call ⟨k, hkept, hposition, nofun⟩ (fun _ _ => ⟨.inr ⟨k, hkept, hreferenced (by simp)⟩, trivial⟩) ?_
  rintro m ⟨k', hk', -, ⟨hreach', -⟩ | ⟨-, rfl⟩⟩ -
  · cases hreach'
  · have hkk : some k = some k' := hkept.symm.trans hk'
    cases hkk
    refine ⟨rfl, by simp [hkstack], fun hopen => ⟨{ l.join b.stack b.locals with referenced := true }, ?_, hopen, rfl,
      fun _ => rfl⟩⟩
    simp [Body.branched, Body.added, Array.getElem?_modify, hij.symm, hl]

end Labels

/-! ## Expressions and tests -/

section Expressions

variable {typed : Prop} {find : Lookup} {L : Types} {b : Body}

def PushesTwo (typed : Prop) (S : Types) (m : Body) : Prop :=
  m.reachable = true ∧ ∃ t u, m.stack = (S.push t).push u ∧ (typed → t = .integer ∧ u = .integer)

theorem operands_safe {first second : List Call} (hfirst : Safe typed find L first b (Pushes typed .integer b))
    (hsecond : ∀ m, Performs first b m → m.reachable = true → Safe typed find L second m (Pushes typed .integer m)) :
    Safe typed find L (first ++ second) b (PushesTwo typed b.stack) := by
  refine hfirst.append ?_
  rintro m hm - ⟨hreach, t, hstack, ht⟩
  refine (hsecond m hm hreach).imp ?_
  rintro b' - ⟨hreach', u, hstack', hu⟩
  exact ⟨hreach', t, u, by rw [hstack', hstack], fun htyped => ⟨ht htyped, hu htyped⟩⟩

theorem arithmetic_safe {S : Types} (op : Arithmetic) (h : PushesTwo typed S b) :
    Safe typed find L [.arithmetic op] b fun b' => b'.reachable = true ∧ b'.stack = S.push .integer := by
  obtain ⟨hreach, t, u, hstack, htypes⟩ := h
  refine .call (by simp [Call.Ready, hstack]) ?_ ?_
  · intro ht _
    obtain ⟨rfl, rfl⟩ := htypes ht
    exact ⟨⟨hreach, S, hstack⟩, trivial⟩
  · rintro b' ⟨S', popped, hsize, hS', rfl⟩ -
    have hsplit : b.stack = S ++ #[t, u] := by rw [hstack]; apply Array.ext'; simp
    obtain ⟨rfl, -⟩ := Array.append_inj' (hsplit.symm.trans hS') (by rw [hsize]; rfl)
    exact ⟨hreach, rfl⟩

theorem pushInt_step (value : Int32) (hreach : b.reachable = true) :
    Safe typed find L [.pushInt value] b fun m => m.reachable = true ∧ m.stack = b.stack.push .integer := by
  refine .call trivial (fun _ _ => ⟨hreach, trivial⟩) ?_
  rintro m ⟨pool, i, -, -, rfl⟩ -
  exact ⟨hreach, rfl⟩

theorem choice_safe {S : Types} (condition : Condition) {i j : Nat} (hij : i ≠ j) (h : PushesTwo typed S b)
    (hi : b.Waits i none) (hj : b.Waits j none) :
    Safe typed find L [.branch condition i, .pushInt 0, .jump j, .bind i, .pushInt 1, .bind j] b
      fun b' => b'.reachable = true ∧ b'.stack = S.push .integer := by
  have hsplit : [Call.branch condition i, .pushInt 0, .jump j, .bind i, .pushInt 1, .bind j] =
      [Call.branch condition i] ++ ([Call.pushInt 0] ++
        ([Call.jump j, .bind i] ++ ([Call.pushInt 1] ++ [Call.bind j]))) := rfl
  rw [hsplit]
  obtain ⟨hreach, t, u, hstack, htypes⟩ := h
  refine (branch_safe condition hstack htypes hreach hi (.inl rfl)).append ?_
  rintro m hm - ⟨hreach, hstack, hwi⟩
  refine (pushInt_step 0 hreach).append ?_
  rintro m₁ hm₁ - ⟨hreach, hstack₁⟩
  have hwi₁ := hm₁.waits (by simp [Call.label?]) hwi
  have hwj₁ := hm₁.waits (by simp [Call.label?]) (hm.waits (by simpa [Call.label?] using hij) hj)
  obtain ⟨l, hl, hposition, hnone, -⟩ := hwj₁
  refine (detour_safe hij.symm hreach hl (Agrees.fits (.inl hnone)) hwi₁).append ?_
  rintro m₂ - - ⟨hreach, hstack₂, hwj⟩
  refine (pushInt_step 1 hreach).append ?_
  rintro m₃ hm₃ - ⟨hreach, hstack₃⟩
  have hsame : m₃.stack = S.push .integer := by rw [hstack₃, hstack₂]
  have hwj₃ := hm₃.waits (by simp [Call.label?]) (hwj hposition)
  rw [hstack₁, hstack] at hwj₃
  refine (bind_safe hreach hwj₃ (.inr (by rw [hsame]))).imp ?_
  rintro b' - ⟨hreach, hstack', -⟩
  exact ⟨hreach, hstack'.trans hsame⟩

theorem Expr.safe (e : Expr) (type : VarType) (htype : typed → e.hasType find.typing type = true)
    (hreach : b.reachable = true) : Safe typed find L (e.calls find b.labels.size) b (Pushes typed type b) := by
  induction e generalizing b type with
  | number value =>
    exact pushInt_safe value type (fun ht => Expr.hasType_number.1 (htype ht)) hreach
  | name x =>
    exact variableCalls_safe x type (fun ht => Expr.hasType_name.1 (htype ht)) hreach
  | paren inner ih =>
    exact ih type (fun ht => Expr.hasType_paren ▸ htype ht) hreach
  | arithmetic op left right ihl ihr =>
    have hint := fun ht => Expr.hasType_arithmetic.1 (htype ht)
    refine (operands_safe (ihl .integer (fun ht => (hint ht).2.1) hreach) ?_).append ?_
    · intro m hm hreach
      rw [← (left.ownsLabels find b.labels.size).count_newLabel, ← hm.labels_size]
      exact ihr .integer (fun ht => (hint ht).2.2) hreach
    · intro m _ _ hm
      refine (arithmetic_safe op hm).imp ?_
      rintro b' - ⟨hreach, hstack⟩
      exact ⟨hreach, .integer, hstack, fun ht => by rw [(hint ht).1]; rfl⟩
  | compare op left right ihl ihr =>
    have hint := fun ht => Expr.hasType_compare.1 (htype ht)
    rw [Expr.calls, List.append_assoc _ (left.calls find _), List.append_assoc]
    refine twoLabels_safe.append ?_
    rintro m - - ⟨hwi, hwj, hsize, hstack, hreach'⟩
    rw [← hsize]
    refine (operands_safe (ihl .integer (fun ht => (hint ht).2.1) (hreach'.trans hreach)) ?_).append ?_
    · intro m' hm' hreach
      rw [← (left.ownsLabels find m.labels.size).count_newLabel, ← hm'.labels_size]
      exact ihr .integer (fun ht => (hint ht).2.2) hreach
    · intro m' hm' _ htwo
      -- the operands have labels of their own
      have hother : ∀ i, i < m.labels.size → ∀ c ∈ left.calls find m.labels.size ++
          right.calls find (m.labels.size + left.labelCount), c.label? ≠ some i := by
        intro i hi c hc hlabel
        have := (left.ownsLabels find m.labels.size).append (right.ownsLabels find _) |>.label_range c hc i hlabel
        omega
      rw [hstack] at htwo
      refine (choice_safe op.condition (by omega) htwo (hm'.waits (hother _ (by omega)) hwi)
        (hm'.waits (hother _ (by omega)) hwj)).imp ?_
      rintro b' - ⟨hreach, hstack⟩
      exact ⟨hreach, .integer, hstack, fun ht => by rw [(hint ht).1]; rfl⟩

theorem Operand.safe (o : Operand) (htyped : typed → o.isInteger find.typing = true) (hreach : b.reachable = true) :
    Safe typed find L (o.calls find) b (Pushes typed .integer b) := by
  cases o with
  | number value => exact pushInt_safe value .integer (fun _ => rfl) hreach
  | name x => exact variableCalls_safe x .integer (fun ht => by simpa [Operand.isInteger] using htyped ht) hreach

theorem Test.safe (t : Test) (condition : Condition) {label : Nat} {stack : Option Types}
    (htyped : typed → t.wellTyped find.typing = true) (hreach : b.reachable = true) (hw : b.Waits label stack)
    (hagrees : Agrees stack b.stack) :
    Safe typed find L (t.calls find condition label) b fun m =>
      m.reachable = true ∧ m.stack = b.stack ∧ m.Waits label (some b.stack) := by
  have hboth : typed → t.left.isInteger find.typing = true ∧ t.right.isInteger find.typing = true :=
    fun ht => by simpa [Test.wellTyped] using htyped ht
  refine (operands_safe (t.left.safe (fun ht => (hboth ht).1) hreach) ?_).append ?_
  · intro m _ hreach
    exact t.right.safe (fun ht => (hboth ht).2) hreach
  · rintro m hm - ⟨hreach, u, v, hstack, hints⟩
    refine branch_safe condition hstack hints hreach (hm.waits ?_ hw) hagrees
    intro c hc hlabel
    rcases List.mem_append.1 hc with hc | hc
    · rw [(t.left.calls_noLabels find c hc).2] at hlabel
      cases hlabel
    · rw [(t.right.calls_noLabels find c hc).2] at hlabel
      cases hlabel

end Expressions

/-! ## Calls of the library -/

namespace Library

theorem output_type : JavaType.ofFieldDescriptor? output.descriptor = some (.object "java/io/PrintStream") := by decide +kernel

theorem console_type (className : String) :
    JavaType.ofFieldDescriptor? (console className).descriptor = some (.object scannerClass) := by
  change JavaType.ofFieldDescriptor? "Ljava/util/Scanner;" = some (.object "java/util/Scanner")
  decide +kernel

theorem print_owner (type : VarType) : (print type).owner = "java/io/PrintStream" := by cases type <;> rfl

theorem nextLine_owner : nextLine.owner = scannerClass := rfl

theorem trim_owner : trim.owner = Body.stringClass := rfl

def javaType : VarType → JavaType
  | .integer => .int
  | .text => .object Body.stringClass

theorem print_type (type : VarType) :
    JavaType.ofMethodDescriptor? (print type).descriptor = some ([javaType type], .void) := by
  cases type <;> decide +kernel

theorem nextLine_type : JavaType.ofMethodDescriptor? nextLine.descriptor = some ([], javaType .text) := by decide +kernel

theorem trim_type : JavaType.ofMethodDescriptor? trim.descriptor = some ([], javaType .text) := by decide +kernel

theorem parseInt_type :
    JavaType.ofMethodDescriptor? parseInt.descriptor = some ([javaType .text], javaType .integer) := by
  decide +kernel

theorem stands_javaType {type : VarType} {pool : ConstantPool} {t : VerificationType} :
    (javaType type).Stands pool t ↔ type.Stands pool t := by
  cases type with
  | integer => rfl
  | text =>
    constructor
    · rintro ⟨name, i, hname, rfl, hi⟩
      cases hname
      exact ⟨i, rfl, hi⟩
    · rintro ⟨i, rfl, hi⟩
      exact ⟨_, i, rfl, rfl, hi⟩

theorem javaType_isStackable (type : VarType) : (javaType type).IsStackable := by
  cases type with
  | integer => exact .inl rfl
  | text => exact .inr rfl

theorem javaType_ne_void (type : VarType) : javaType type ≠ .void := by cases type <;> simp [javaType]

end Library

section Members

variable {typed : Prop} {find : Lookup} {L : Types} {b : Body} {S : Types}

theorem getStatic_safe (m : MemberRef) {name : String}
    (hm : JavaType.ofFieldDescriptor? m.descriptor = some (.object name)) (hreach : b.reachable = true) :
    Safe typed find L [.getStatic m] b fun b' =>
      b'.reachable = true ∧ ∃ i, b'.stack = b.stack.push (.object i) ∧ b'.pool.IsClass i name := by
  refine .call ⟨_, hm, .inr rfl⟩ (fun _ _ => ⟨hreach, trivial⟩) ?_
  rintro b' ⟨pool, index, type, t, -, hm', ht, -, rfl⟩ -
  rw [hm] at hm'
  cases hm'
  obtain ⟨name', i, hname, rfl, hi⟩ := ht
  cases hname
  exact ⟨hreach, i, rfl, hi⟩

theorem invokeGetter_safe (m : MemberRef) {type : VarType}
    (hm : JavaType.ofMethodDescriptor? m.descriptor = some ([], Library.javaType type)) (hreach : b.reachable = true)
    {t : VerificationType} (hstack : b.stack = S.push t) (ht : typed → ∃ i, t = .object i ∧ b.pool.IsClass i m.owner) :
    Safe typed find L [.invokeVirtual m] b fun b' =>
      b'.reachable = true ∧ ∃ u, b'.stack = S.push u ∧ type.Stands b'.pool u := by
  refine .call ⟨0, _, ⟨[], hm, rfl⟩, .inr (Library.javaType_isStackable type), by simp [hstack]⟩ ?_ ?_
  · intro htyped _
    obtain ⟨i, rfl, hi⟩ := ht htyped
    exact ⟨⟨hreach, S, #[], i, by simp [hstack], hi, [], _, hm, rfl, by simp⟩, trivial⟩
  · rintro b' ⟨pool, index, count, result, S', receiver, popped, -, ⟨params, hm', rfl⟩, -, hsize, hS', hreturned⟩ -
    rw [hm] at hm'
    cases hm'
    obtain rfl := Array.eq_empty_of_size_eq_zero hsize
    rw [Array.append_empty, hstack, Array.push_eq_push] at hS'
    obtain ⟨-, rfl⟩ := hS'
    obtain ⟨hvoid, -⟩ | ⟨-, u, hu, rfl⟩ := hreturned
    · exact absurd hvoid (Library.javaType_ne_void type)
    · exact ⟨hreach, u, rfl, Library.stands_javaType.1 hu⟩

theorem accepts_one {m : MemberRef} {type : VarType} {result : JavaType} {pool : ConstantPool} {t : VerificationType}
    (hm : JavaType.ofMethodDescriptor? m.descriptor = some ([Library.javaType type], result))
    (ht : type.Stands pool t) : m.Accepts pool #[t] :=
  ⟨_, _, hm, rfl, by simpa using Library.stands_javaType.2 ht⟩

theorem print_safe (type : VarType) (hreach : b.reachable = true) {r t : VerificationType}
    (hstack : b.stack = (S.push r).push t)
    (htypes : typed → (∃ i, r = .object i ∧ b.pool.IsClass i (Library.print type).owner) ∧ type.Stands b.pool t) :
    Safe typed find L [.invokeVirtual (Library.print type)] b fun b' => b'.reachable = true ∧ b'.stack = S := by
  have hm := Library.print_type type
  have hsplit : b.stack = S.push r ++ #[t] := by rw [hstack]; apply Array.ext'; simp
  refine .call ⟨1, _, ⟨_, hm, rfl⟩, .inl rfl, by simp [hstack]⟩ ?_ ?_
  · intro htyped _
    obtain ⟨⟨i, rfl, hi⟩, ht⟩ := htypes htyped
    exact ⟨⟨hreach, S, #[t], i, hsplit, hi, accepts_one hm ht⟩, trivial⟩
  · rintro b' ⟨pool, index, count, result, S', receiver, popped, -, ⟨params, hm', rfl⟩, -, hsize, hS', hreturned⟩ -
    rw [hm] at hm'
    cases hm'
    obtain ⟨hpush, -⟩ := Array.append_inj' (hsplit.symm.trans hS') (by rw [hsize]; rfl)
    rw [Array.push_eq_push] at hpush
    obtain ⟨-, rfl⟩ := hpush
    obtain ⟨-, rfl⟩ | ⟨hvoid, -⟩ := hreturned
    · exact ⟨hreach, rfl⟩
    · exact absurd rfl hvoid

theorem parse_safe (hreach : b.reachable = true) {t : VerificationType} (hstack : b.stack = S.push t)
    (ht : typed → VarType.Stands .text b.pool t) :
    Safe typed find L [.invokeStatic Library.parseInt] b fun b' =>
      b'.reachable = true ∧ b'.stack = S.push .integer := by
  have hm := Library.parseInt_type
  have hsplit : b.stack = S ++ #[t] := by rw [hstack]; apply Array.ext'; simp
  refine .call ⟨1, _, ⟨_, hm, rfl⟩, .inr (Library.javaType_isStackable _), by simp [hstack]⟩ ?_ ?_
  · intro htyped _
    exact ⟨⟨hreach, S, #[t], hsplit, accepts_one hm (ht htyped)⟩, trivial⟩
  · rintro b' ⟨pool, index, count, result, S', popped, -, ⟨params, hm', rfl⟩, -, hsize, hS', hreturned⟩ -
    rw [hm] at hm'
    cases hm'
    obtain ⟨rfl, -⟩ := Array.append_inj' (hsplit.symm.trans hS') (by rw [hsize]; rfl)
    obtain ⟨hvoid, -⟩ | ⟨-, u, hu, rfl⟩ := hreturned
    · cases hvoid
    · obtain rfl := Library.stands_javaType.1 hu
      exact ⟨hreach, rfl⟩

theorem store_safe {name : String} {v : Variable} (hv : find name = some v) (hwf : b.pool.WellFormed)
    (hreach : b.reachable = true) {t : VerificationType} (hstack : b.stack = S.push t)
    (ht : typed → v.type.Stands b.pool t) :
    Safe typed find L [.store v.slot v.type.kind] b fun b' => b'.reachable = true ∧ b'.stack = S := by
  refine .call (by simp [Call.Ready, hstack]) ?_ ?_
  · intro htyped hs
    refine ⟨⟨hreach, S, t, hstack, (ht htyped).hasKind⟩, ?_⟩
    obtain ⟨u, hu, hstands⟩ := hs.holds name v hv
    rw [Call.Keeps, hstack, Array.back?_push, hs.locals, hu, (ht htyped).unique hwf hstands]
  · rintro b' ⟨S', t', hS', rfl⟩ -
    rw [hstack, Array.push_eq_push] at hS'
    obtain ⟨-, rfl⟩ := hS'
    exact ⟨hreach, rfl⟩

end Members

/-! ## Statements -/

/-- Control can reach the end, and the operand stack is as it was. -/
def Leaves (b b' : Body) : Prop := b'.reachable = true ∧ b'.stack = b.stack

section Statements

variable {typed : Prop} {find : Lookup} {L : Types} {b : Body}

theorem pushText_safe (text : String) (hreach : b.reachable = true) :
    Safe typed find L [.pushText text] b (Pushes typed .text b) := by
  refine .call trivial (fun _ _ => ⟨hreach, trivial⟩) ?_
  rintro b' ⟨pool, i, c, -, -, hc, rfl⟩ -
  exact ⟨hreach, .object c, rfl, fun _ => ⟨c, rfl, hc⟩⟩

theorem printing_safe (type : VarType) {value : List Call} (hreach : b.reachable = true)
    (hvalue : ∀ m, m.reachable = true → Safe typed find L value m (Pushes typed type m)) :
    Safe typed find L ([Call.getStatic Library.output] ++ (value ++ [Call.invokeVirtual (Library.print type)])) b
      (Leaves b) := by
  refine (getStatic_safe Library.output Library.output_type hreach).append ?_
  rintro m - - ⟨hreach, i, hstack, hi⟩
  refine (hvalue m hreach).append ?_
  rintro m' - hc ⟨hreach, t, hstack', ht⟩
  rw [hstack] at hstack'
  refine print_safe type hreach hstack' fun htyped => ⟨⟨i, rfl, ?_⟩, ht htyped⟩
  rw [Library.print_owner]
  exact hi.mono hc.pool.1

theorem convertCalls_safe (type : VarType) {S : Types} (hreach : b.reachable = true) {t : VerificationType}
    (hstack : b.stack = S.push t) (ht : VarType.Stands .text b.pool t) :
    Safe typed find L (convertCalls type) b fun m =>
      m.reachable = true ∧ ∃ u, m.stack = S.push u ∧ type.Stands m.pool u := by
  cases type with
  | text => exact .nil ⟨hreach, t, hstack, ht⟩
  | integer =>
    have hsplit : convertCalls .integer =
        [Call.invokeVirtual Library.trim] ++ [Call.invokeStatic Library.parseInt] := rfl
    rw [hsplit]
    obtain ⟨i, rfl, hi⟩ := ht
    rw [← Library.trim_owner] at hi
    refine (invokeGetter_safe Library.trim Library.trim_type hreach hstack fun _ => ⟨i, rfl, hi⟩).append ?_
    rintro m - - ⟨hreach, u, hstack, hu⟩
    refine (parse_safe hreach hstack fun _ => hu).imp ?_
    rintro m' - ⟨hreach, hstack⟩
    exact ⟨hreach, .integer, hstack, rfl⟩

theorem readCalls_safe (className : String) {name : String} {v : Variable} (hv : find name = some v)
    (hreach : b.reachable = true) : Safe typed find L (readCalls className v) b (Leaves b) := by
  have hsplit : readCalls className v = [Call.getStatic (Library.console className)] ++
      ([Call.invokeVirtual Library.nextLine] ++ (convertCalls v.type ++ [Call.store v.slot v.type.kind])) := by
    simp [readCalls]
  rw [hsplit]
  refine (getStatic_safe (Library.console className) (Library.console_type className) hreach).append ?_
  rintro m - - ⟨hreach, i, hstack, hi⟩
  rw [← Library.nextLine_owner] at hi
  refine (invokeGetter_safe Library.nextLine Library.nextLine_type hreach hstack fun _ => ⟨i, rfl, hi⟩).append ?_
  rintro m₁ - - ⟨hreach, t, hstack₁, ht⟩
  refine (convertCalls_safe v.type hreach hstack₁ ht).append ?_
  rintro m₂ - hc ⟨hreach, u, hstack₂, hu⟩
  exact store_safe hv hc.wellFormed hreach hstack₂ fun _ => hu

theorem block_label_ne {className : String} {body : List Stmt} {n i : Nat} (hi : i < n) :
    ∀ c ∈ blockCalls className find body n, c.label? ≠ some i := by
  intro c hc hlabel
  have := (block_ownsLabels className find body n).label_range c hc i hlabel
  omega

theorem Test.label_ne {test : Test} {condition : Condition} {label i : Nat} (hi : i ≠ label) :
    ∀ c ∈ test.calls find condition label, c.label? ≠ some i :=
  fun _ hc hlabel => hi ((Test.label_of_mem_calls hc).2 i hlabel)

/-- Wherever control is, the calls of the block leave the operand stack as it was. -/
def BlockSafe (typed : Prop) (className : String) (find : Lookup) (L : Types) (body : List Stmt) : Prop :=
  ∀ m : Body, m.reachable = true → Safe typed find L (blockCalls className find body m.labels.size) m (Leaves m)

theorem ifElse_safe {className : String} {test : Test} {thenBody elseBody : List Stmt}
    (htest : typed → test.wellTyped find.typing = true) (hthen : BlockSafe typed className find L thenBody)
    (helse : BlockSafe typed className find L elseBody) (hreach : b.reachable = true) :
    Safe typed find L ((Stmt.ifElse test thenBody elseBody).calls className find b.labels.size) b (Leaves b) := by
  simp only [Stmt.calls, List.append_assoc]
  refine twoLabels_safe.append ?_
  rintro m - - ⟨hwi, hwj, hsize, hstack, hreach'⟩
  refine (test.safe test.op.condition htest (hreach'.trans hreach) hwi (.inl rfl)).append ?_
  rintro m₁ hm₁ - ⟨hreach, hstack₁, hwi⟩
  have hsize₁ : m₁.labels.size = b.labels.size + 2 := by rw [hm₁.labels_size, hsize, Test.count_newLabel]
  have hwj := hm₁.waits (Test.label_ne (by omega)) hwj
  rw [← hsize₁]
  refine (helse m₁ hreach).append ?_
  rintro m₂ hm₂ - ⟨hreach, hstack₂⟩
  have hsize₂ : m₂.labels.size = m₁.labels.size + blockLabelCount find elseBody := by
    rw [hm₂.labels_size, (block_ownsLabels className find elseBody _).count_newLabel]
  have hwi := hm₂.waits (block_label_ne (by omega)) hwi
  obtain ⟨l, hl, hposition, hnone, -⟩ := hm₂.waits (block_label_ne (by omega)) hwj
  refine (detour_safe (by omega) hreach hl (Agrees.fits (.inl hnone)) hwi).append ?_
  rintro m₃ hm₃ - ⟨hreach, hstack₃, hwj⟩
  have hsize₃ : m₃.labels.size = m₂.labels.size := hm₃.labels_size
  rw [← hsize₂, ← hsize₃]
  refine (hthen m₃ hreach).append ?_
  rintro m₄ hm₄ - ⟨hreach, hstack₄⟩
  have hwj := hm₄.waits (block_label_ne (by omega)) (hwj hposition)
  have hsame : m₄.stack = b.stack := by rw [hstack₄, hstack₃, hstack]
  rw [hstack₂, hstack₁, hstack, ← hsame] at hwj
  refine (bind_safe hreach hwj (.inr rfl)).imp ?_
  rintro b' - ⟨hreach, hstack', -⟩
  exact ⟨hreach, hstack'.trans hsame⟩

theorem whileDo_safe {className : String} {test : Test} {body : List Stmt}
    (htest : typed → test.wellTyped find.typing = true) (hbody : BlockSafe typed className find L body)
    (hreach : b.reachable = true) :
    Safe typed find L ((Stmt.whileDo test body).calls className find b.labels.size) b (Leaves b) := by
  have hsplit : (Stmt.whileDo test body).calls className find b.labels.size =
      [Call.newLabel, .newLabel] ++ ([Call.bind b.labels.size] ++
        (test.calls find test.op.condition.negate (b.labels.size + 1) ++
          (blockCalls className find body (b.labels.size + 2) ++
            [Call.jump b.labels.size, .bind (b.labels.size + 1)]))) := by
    simp [Stmt.calls]
  rw [hsplit]
  refine twoLabels_safe.append ?_
  rintro m - - ⟨hwi, hwj, hsize, hstack, hreach'⟩
  refine (bind_safe (hreach'.trans hreach) hwi (.inl rfl)).append ?_
  rintro m₁ hm₁ - ⟨hreach, hstack₁, l, hl, hlstack⟩
  have hwj := hm₁.waits (by simp [Call.label?]) hwj
  refine (test.safe test.op.condition.negate htest hreach hwj (.inl rfl)).append ?_
  rintro m₂ hm₂ - ⟨hreach, hstack₂, hwj⟩
  have hsize₂ : m₂.labels.size = b.labels.size + 2 := by
    rw [hm₂.labels_size, Test.count_newLabel, hm₁.labels_size, hsize]
    rfl
  rw [← hsize₂]
  refine (hbody m₂ hreach).append ?_
  rintro m₃ hm₃ - ⟨hreach, hstack₃⟩
  have hwj := hm₃.waits (block_label_ne (by omega)) hwj
  have hl : m₃.labels[b.labels.size]? = some l := by
    obtain ⟨hlt, -⟩ := Array.getElem?_eq_some_iff.1 hl
    rw [hm₃.labels_other (by omega) (block_label_ne (by omega)), hm₂.labels_other hlt (Test.label_ne (by omega)), hl]
  have hsame : m₃.stack = b.stack := by rw [hstack₃, hstack₂, hstack₁, hstack]
  have hfits : l.Fits m₃.stack := Agrees.fits (.inr (by rw [hlstack, hsame, hstack]))
  refine (detour_safe (by omega) hreach hl hfits hwj).imp ?_
  rintro b' - ⟨hreach, hstack', -⟩
  exact ⟨hreach, by rw [hstack', hstack₁, hstack]⟩

theorem block_safe (className : String) (body : List Stmt) : ∀ b : Body,
    (typed → blockWellTyped find.typing body = true) → b.reachable = true →
      Safe typed find L (blockCalls className find body b.labels.size) b (Leaves b) := by
  induction body using block_induction
    (P := fun stmt => ∀ b : Body, (typed → stmt.wellTyped find.typing = true) → b.reachable = true →
      Safe typed find L (stmt.calls className find b.labels.size) b (Leaves b)) with
  | printText text b htyped hreach =>
    exact printing_safe .text hreach fun m hm => pushText_safe text hm
  | printName name b htyped hreach =>
    simp only [Stmt.calls]
    cases hv : find name with
    | none => exact .nil ⟨hreach, rfl⟩
    | some v => exact printing_safe v.type hreach fun m hm => load_safe hv (fun _ => rfl) hm
  | read name b htyped hreach =>
    simp only [Stmt.calls]
    cases hv : find name with
    | none => exact .nil ⟨hreach, rfl⟩
    | some v => exact readCalls_safe className hv hreach
  | setText name text b htyped hreach =>
    simp only [Stmt.calls]
    cases hv : find name with
    | none => exact .nil ⟨hreach, rfl⟩
    | some v =>
      have htext : typed → v.type = .text :=
        fun ht => by simpa [Stmt.wellTyped, Lookup.typing, hv] using htyped ht
      refine (pushText_safe text hreach).append ?_
      rintro m - hc ⟨hreach, t, hstack, ht⟩
      exact store_safe hv hc.wellFormed hreach hstack fun h => by rw [htext h]; exact ht h
  | setExpr name value b htyped hreach =>
    simp only [Stmt.calls]
    cases hv : find name with
    | none => exact .nil ⟨hreach, rfl⟩
    | some v =>
      have hvalue : typed → value.hasType find.typing v.type = true :=
        fun ht => by simpa [Stmt.wellTyped, Lookup.typing, hv] using htyped ht
      refine (value.safe v.type hvalue hreach).append ?_
      rintro m - hc ⟨hreach, t, hstack, ht⟩
      exact store_safe hv hc.wellFormed hreach hstack ht
  | ifThen test thenBody ih b htyped hreach =>
    have hparts : typed → test.wellTyped find.typing = true ∧ blockWellTyped find.typing thenBody = true :=
      fun ht => by simpa [Stmt.wellTyped] using htyped ht
    rw [Stmt.calls_ifThen]
    exact ifElse_safe (fun ht => (hparts ht).1) (fun m => ih m fun ht => (hparts ht).2)
      (fun m hm => .nil ⟨hm, rfl⟩) hreach
  | ifElse test thenBody elseBody ihThen ihElse b htyped hreach =>
    have hparts : typed → (test.wellTyped find.typing = true ∧ blockWellTyped find.typing thenBody = true) ∧
        blockWellTyped find.typing elseBody = true :=
      fun ht => by simpa [Stmt.wellTyped] using htyped ht
    exact ifElse_safe (fun ht => (hparts ht).1.1) (fun m => ihThen m fun ht => (hparts ht).1.2)
      (fun m => ihElse m fun ht => (hparts ht).2) hreach
  | whileDo test body ih b htyped hreach =>
    have hparts : typed → test.wellTyped find.typing = true ∧ blockWellTyped find.typing body = true :=
      fun ht => by simpa [Stmt.wellTyped] using htyped ht
    exact whileDo_safe (fun ht => (hparts ht).1) (fun m => ih m fun ht => (hparts ht).2) hreach
  | nil => exact fun b _ hreach => .nil ⟨hreach, rfl⟩
  | cons stmt rest ihStmt ihRest =>
    intro b htyped hreach
    have hparts : typed → stmt.wellTyped find.typing = true ∧ blockWellTyped find.typing rest = true :=
      fun ht => by simpa [blockWellTyped] using htyped ht
    refine (ihStmt b (fun ht => (hparts ht).1) hreach).append ?_
    rintro m hm - ⟨hreach, hstack⟩
    have hsize : m.labels.size = b.labels.size + stmt.labelCount find := by
      rw [hm.labels_size, (stmt.ownsLabels className find _).count_newLabel]
    rw [← hsize]
    refine (ihRest m (fun ht => (hparts ht).2) hreach).imp ?_
    rintro b' - ⟨hreach, hstack'⟩
    exact ⟨hreach, hstack'.trans hstack⟩

end Statements

end KnightCode
