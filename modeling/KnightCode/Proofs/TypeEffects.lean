import KnightCode.Proofs.Constants
import KnightCode.Proofs.Discipline
import KnightCode.Proofs.NamedTypes
import KnightCode.Proofs.Verifier

/-!
# What typed calls do to the types

The types that a body tracks while it grows are those that the verifier works out from the instructions: for every call,
the verifier finds the operands that the instruction needs, and goes on with the types that the body has after it.
-/

namespace KnightCode

/-! ## Types with names -/

/-- What a type stands for, if it is named. -/
def ConstantPool.known (pool : ConstantPool) (t : VerificationType) : SlotType := (pool.slotType? t).getD .top

section Known

variable {pool : ConstantPool} {t : VerificationType}

@[simp] theorem ConstantPool.known_integer (pool : ConstantPool) : pool.known .integer = .integer := rfl

@[simp] theorem ConstantPool.known_top (pool : ConstantPool) : pool.known .top = .top := rfl

theorem ConstantPool.IsClass.known {i : UInt16} {name : String} (h : pool.IsClass i name) :
    pool.known (.object i) = .object name := by
  rw [ConstantPool.known, ConstantPool.slotType?, h.className?]
  rfl

theorem VerificationType.Named.slotType? (h : t.Named pool) : pool.slotType? t = some (pool.known t) := by
  cases t with
  | object i =>
    obtain ⟨name, hi⟩ := h
    rw [hi.known, ConstantPool.slotType?, hi.className?]
    rfl
  | _ => rfl

theorem JavaType.Stands.ofJava? {type : JavaType} (h : type.Stands pool t) :
    SlotType.ofJava? type = some (pool.known t) := by
  unfold JavaType.Stands at h
  unfold SlotType.ofJava?
  split at h
  · next hint => rw [if_pos hint, h, ConstantPool.known_integer]
  · next hint =>
    obtain ⟨name, i, hname, rfl, hi⟩ := h
    rw [if_neg hint, hname, hi.known]
    rfl

end Known

def Body.typeState (pool : ConstantPool) (b : Body) : TypeState :=
  ⟨b.locals.toList.map pool.known, (b.stack.toList.map pool.known).reverse⟩

/-! ## Operations of the verifier -/

namespace TypeState

theorem pop?_append (locals types rest : List SlotType) :
    pop? ⟨locals, types ++ rest⟩ types = some ⟨locals, rest⟩ := by
  have hprefix : types.isPrefixOf (types ++ rest) = true := List.isPrefixOf_iff_prefix.2 (List.prefix_append _ _)
  rw [pop?, if_pos hprefix, List.drop_left]

theorem assign_map (pool : ConstantPool) (b : Body) (slot : UInt16) (t : VerificationType) (stack : List SlotType) :
    assign ⟨b.locals.toList.map pool.known, stack⟩ slot.toNat (pool.known t) =
      ⟨(b.assigned slot t).locals.toList.map pool.known, stack⟩ := by
  simp [assign, Body.assigned, List.map_set]

end TypeState

theorem mapM_ofJava? {pool : ConstantPool} {params : List JavaType} {args : List VerificationType}
    (hlength : args.length = params.length) (hstands : ∀ p ∈ params.zip args, p.1.Stands pool p.2) :
    params.mapM SlotType.ofJava? = some (args.map pool.known) := by
  induction params generalizing args with
  | nil =>
    obtain rfl := List.eq_nil_of_length_eq_zero hlength
    rfl
  | cons p params ih =>
    cases args with
    | nil => cases hlength
    | cons t args =>
      have hfirst : p.Stands pool t := hstands (p, t) (.head _)
      rw [List.mapM_cons, hfirst.ofJava?, ih (Nat.succ.inj hlength) fun q hq => hstands q (.tail _ hq)]
      rfl

theorem TypeState.call?_eq {m : MemberRef} {pool later : ConstantPool} {args S : Types} {receiver : List SlotType}
    {count : Nat} {result : JavaType} {b b' : Body} (accepts : m.Accepts pool args) (takes : m.Takes count result)
    (hext : pool.Extends later) {grown : ConstantPool} (hgrown : grown.Extends later) (hstack : b.stack = S)
    (hreturned : b.Returned b' result grown) :
    call? ⟨b.locals.toList.map later.known,
        (args.toList.map later.known).reverse ++ (receiver ++ (S.toList.map later.known).reverse)⟩
      receiver m.descriptor = some (b'.typeState later) := by
  obtain ⟨params, result', hm, hsize, hstands⟩ := accepts
  obtain ⟨params', hm', -⟩ := takes
  rw [hm] at hm'
  cases hm'
  have htypes : params.mapM SlotType.ofJava? = some (args.toList.map later.known) :=
    mapM_ofJava? (by rw [Array.length_toList, hsize]) fun p hp => (hstands p hp).mono hext
  have hpop := pop?_append (b.locals.toList.map later.known) ((args.toList.map later.known).reverse ++ receiver)
    (S.toList.map later.known).reverse
  rw [List.append_assoc] at hpop
  simp only [call?, hm, htypes, hpop, bind, Option.bind]
  obtain ⟨hvoid, rfl⟩ | ⟨hresult, t, ht, rfl⟩ := hreturned
  · rw [if_pos hvoid, ← hstack]
    rfl
  · rw [if_neg hresult, (ht.mono hgrown).ofJava?, ← hstack]
    simp [Body.typeState, Body.pushed, TypeState.push]

/-! ## Instructions -/

theorem Body.typeState_pushed (later pool : ConstantPool) (b : Body) (item : Item) (t : VerificationType) :
    ((b.added pool item b.stack).pushed t).typeState later = (b.typeState later).push (later.known t) := by
  simp [Body.typeState, Body.pushed, Body.added, TypeState.push]

theorem Instruction.LoadsInt.after? {pool : ConstantPool} {i : Instruction} {value : Int32} (h : i.LoadsInt pool value)
    (s : TypeState) : i.after? pool s = some (s.push .integer) := by
  have hconstant : ∀ index, pool.IsInteger index value → (pool.loadable? index).map s.push = some (s.push .integer) := by
    intro index hindex
    have hindex : pool.get? index = some (.integer value) := hindex
    rw [ConstantPool.loadable?, hindex]
    rfl
  cases i with
  | iconst n => rfl
  | bipush v => rfl
  | sipush v => rfl
  | ldc index => exact hconstant _ h
  | ldcWide index => exact hconstant _ h
  | _ => exact h.elim

theorem Instruction.LoadsText.after? {pool : ConstantPool} {i : Instruction} {text : String} (h : i.LoadsText pool text)
    (s : TypeState) : i.after? pool s = some (s.push (.object Body.stringClass)) := by
  have hconstant : ∀ index, pool.IsString index text →
      (pool.loadable? index).map s.push = some (s.push (.object Body.stringClass)) := by
    rintro index ⟨n, hget, -⟩
    rw [ConstantPool.loadable?, hget]
    rfl
  cases i with
  | ldc index => exact hconstant _ h
  | ldcWide index => exact hconstant _ h
  | _ => exact h.elim

theorem TypeState.load?_eq {later : ConstantPool} {b : Body} {slot : UInt16} {kind : ValueKind} {t : VerificationType}
    (hlocal : b.locals[slot.toNat]? = some t) (hkind : t.HasKind kind) (hnamed : t.Named later) :
    (b.typeState later).load? kind slot.toNat = some ((b.typeState later).push (later.known t)) := by
  have hget : (b.locals.toList.map later.known)[slot.toNat]? = some (later.known t) := by
    rw [List.getElem?_map, Array.getElem?_toList, hlocal]
    rfl
  cases kind with
  | int =>
    obtain rfl : t = .integer := hkind
    simp only [load?, Body.typeState, hget, ConstantPool.known_integer]
  | reference =>
    obtain ⟨i, rfl⟩ := hkind
    obtain ⟨name, hi⟩ := hnamed
    rw [hi.known] at hget ⊢
    simp only [load?, Body.typeState, hget]

theorem TypeState.store?_eq {later : ConstantPool} {slot : UInt16} {kind : ValueKind} {t : VerificationType}
    (locals stack : List SlotType) (hkind : t.HasKind kind) (hnamed : t.Named later) :
    store? ⟨locals, later.known t :: stack⟩ kind slot.toNat =
      some (assign ⟨locals, stack⟩ slot.toNat (later.known t)) := by
  cases kind with
  | int =>
    obtain rfl : t = .integer := hkind
    rfl
  | reference =>
    obtain ⟨i, rfl⟩ := hkind
    obtain ⟨name, hi⟩ := hnamed
    rw [hi.known]
    rfl

theorem Body.typeState_two {later : ConstantPool} {b : Body} {S : Types}
    (h : b.stack = (S.push .integer).push .integer) :
    b.typeState later =
      ⟨b.locals.toList.map later.known, [SlotType.integer, .integer] ++ (S.toList.map later.known).reverse⟩ := by
  simp [Body.typeState, h]

theorem Body.popTwo_eq {b : Body} {S S' popped : Types}
    (h : b.stack = (S.push .integer).push .integer) (hS' : b.stack = S' ++ popped) (hsize : popped.size = 2) :
    S' = S := by
  have hsplit : b.stack = S ++ #[.integer, .integer] := by
    rw [h]
    apply Array.ext'
    simp
  exact (Array.append_inj' (hS'.symm.trans hsplit) (by rw [hsize]; rfl)).1

theorem MemberRef.Accepts.size_eq {m : MemberRef} {pool : ConstantPool} {args popped : Types} {count : Nat}
    {result : JavaType} (h : m.Accepts pool args) (takes : m.Takes count result) (hcount : popped.size = count) :
    popped.size = args.size := by
  obtain ⟨params, _, hm, hargs, -⟩ := h
  obtain ⟨params', hm', hparams⟩ := takes
  rw [hm] at hm'
  cases hm'
  rw [hcount, hargs, hparams]

/-- The verifier finds what the instruction of a typed call needs, and goes on with the types of the body. -/
theorem Call.Effect.after? {c : Call} {b b' : Body} {i : Instruction} {later : ConstantPool} (h : c.Effect b b')
    (typed : c.Typed b) (named : b.Named) (hext : b'.pool.Extends later) (emits : c.Emits later (.plain i)) :
    i.after? later (b.typeState later) = some (b'.typeState later) := by
  cases c with
  | pushInt value =>
    obtain ⟨pool, j, -, -, rfl⟩ := h
    obtain ⟨j, hj, hi⟩ := emits
    cases hj
    rw [hi.after?, Body.typeState_pushed, ConstantPool.known_integer]
  | pushText text =>
    obtain ⟨pool, j, k, -, -, hk, rfl⟩ := h
    obtain ⟨j, hj, hi⟩ := emits
    cases hj
    rw [hi.after?, Body.typeState_pushed, (hk.mono hext).known]
  | load slot kind =>
    obtain ⟨pool, t, hgrows, hloads, rfl⟩ := h
    cases emits
    obtain ⟨-, u, hu, hkind⟩ := typed
    -- The body loads the type that its local variable has, since the call is typed.
    have hsame : t = u := by
      cases kind with
      | int =>
        obtain rfl : u = .integer := hkind
        exact hloads
      | reference =>
        obtain ⟨j, rfl⟩ := hkind
        simp only [Body.Loads, hu, Option.getD_some, VerificationType.isReference, if_true, Option.some.injEq] at hloads
        exact hloads.symm
    subst hsame
    have hnamed : t.Named later := (named.locals t (Array.mem_of_getElem? hu)).mono (hgrows.1.trans hext)
    have hload := TypeState.load?_eq hu hkind hnamed
    rw [← Slot.index_ofIndex slot] at hload
    change (b.typeState later).load? kind (Slot.ofIndex slot).index.toNat = _
    rw [hload, ← Body.typeState_pushed later pool b (.plain (.load kind (.ofIndex slot)))]
    rfl
  | store slot kind =>
    obtain ⟨S, t, hS, rfl⟩ := h
    cases emits
    obtain ⟨-, S', t', hS', hkind⟩ := typed
    obtain ⟨rfl, rfl⟩ := Array.push_eq_push.1 (hS.symm.trans hS')
    have hnamed : t.Named later := (named.stack t (by rw [hS]; exact Array.mem_push_self)).mono hext
    have hstate : b.typeState later =
        ⟨b.locals.toList.map later.known, later.known t :: (S.toList.map later.known).reverse⟩ := by
      simp [Body.typeState, hS]
    change (b.typeState later).store? kind (Slot.ofIndex slot).index.toNat = _
    rw [Slot.index_ofIndex, hstate, TypeState.store?_eq _ _ hkind hnamed, TypeState.assign_map]
    rfl
  | arithmetic op =>
    obtain ⟨S, popped, hsize, hS, rfl⟩ := h
    cases emits
    obtain ⟨-, S', hS'⟩ := typed
    obtain rfl := Body.popTwo_eq hS' hS hsize
    change ((b.typeState later).pop? [.integer, .integer]).map (·.push .integer) = _
    rw [Body.typeState_two hS', TypeState.pop?_append]
    simp [Body.typeState, Body.pushed, Body.added, TypeState.push]
  | getStatic m =>
    obtain ⟨pool, j, type, t, -, htype, ht, -, rfl⟩ := h
    obtain ⟨k, hk, hfield⟩ := emits
    cases hk
    change ((((later.field? k).bind fun m => JavaType.ofFieldDescriptor? m.descriptor).bind SlotType.ofJava?).map
      (b.typeState later).push) = _
    rw [hfield.field?, Option.bind_some, htype, Option.bind_some, (ht.mono hext).ofJava?, Body.typeState_pushed]
    rfl
  | invokeVirtual m =>
    obtain ⟨pool, j, count, result, S, receiver, popped, hgrows, htakes, -, hcount, hS, hreturned⟩ := h
    obtain ⟨k, hk, hmethod⟩ := emits
    cases hk
    obtain ⟨-, S', args, r, hS', hr, haccepts⟩ := typed
    rw [hreturned.pool_eq] at hext
    have hlate := hgrows.1.trans hext
    obtain ⟨hpush, rfl⟩ := Array.append_inj' (hS.symm.trans hS') (haccepts.size_eq htakes hcount)
    obtain ⟨rfl, rfl⟩ := Array.push_eq_push.1 hpush
    have hstate : b.typeState later = ⟨b.locals.toList.map later.known, (popped.toList.map later.known).reverse ++
        ([SlotType.object m.owner] ++ (S.toList.map later.known).reverse)⟩ := by
      simp [Body.typeState, hS, (hr.mono hlate).known]
    change ((later.method? k).bind fun m => (b.typeState later).call? [.object m.owner] m.descriptor) = _
    rw [hmethod.method?, Option.bind_some, hstate]
    exact TypeState.call?_eq (b := b.added pool _ S) haccepts htakes hlate hext rfl hreturned
  | invokeStatic m =>
    obtain ⟨pool, j, count, result, S, popped, hgrows, htakes, -, hcount, hS, hreturned⟩ := h
    obtain ⟨k, hk, hmethod⟩ := emits
    cases hk
    obtain ⟨-, S', args, hS', haccepts⟩ := typed
    rw [hreturned.pool_eq] at hext
    have hlate := hgrows.1.trans hext
    obtain ⟨rfl, rfl⟩ := Array.append_inj' (hS.symm.trans hS') (haccepts.size_eq htakes hcount)
    have hstate : b.typeState later = ⟨b.locals.toList.map later.known, (popped.toList.map later.known).reverse ++
        ([] ++ (S.toList.map later.known).reverse)⟩ := by
      simp [Body.typeState, hS]
    change ((later.method? k).bind fun m => (b.typeState later).call? [] m.descriptor) = _
    rw [hmethod.method?, Option.bind_some, hstate]
    exact TypeState.call?_eq (b := b.added pool _ S) haccepts htakes hlate hext rfl hreturned
  | newLabel => exact emits.elim
  | bind label => exact emits.elim
  | branch condition label => cases emits
  | jump label => cases emits
  | putStatic m => exact typed.elim
  | invokeSpecial m => exact typed.elim
  | new className => exact typed.elim
  | dup => exact typed.elim

end KnightCode
