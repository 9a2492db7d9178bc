import KnightCode.Proofs.Pool

/-!
# What calls on a body do

Every call on a body is described once: `Call.Effect` says what the body is after a call that succeeds, and `Call.Ready`
says what a call needs so that only the constant pool can make it fail. All invariants of bodies are derived from these.
-/

namespace KnightCode

def Fault.IsPool : Fault → Prop
  | .code (.pool e) => ConstantPool.Genuine e
  | _ => False

def ConstantPool.GrowsTo (pool later : ConstantPool) : Prop := pool.Extends later ∧ later.WellFormed

theorem ConstantPool.GrowsTo.refl {pool : ConstantPool} (h : pool.WellFormed) : pool.GrowsTo pool := ⟨.refl pool, h⟩

theorem ConstantPool.GrowsTo.trans {a b c : ConstantPool} (hab : a.GrowsTo b) (hbc : b.GrowsTo c) : a.GrowsTo c :=
  ⟨hab.1.trans hbc.1, hbc.2⟩

namespace Body

/-! ## Changes of a body -/

def added (b : Body) (pool : ConstantPool) (item : Item) (stack : Array VerificationType) : Body :=
  { b with pool, items := b.items.push item, size := b.size + item.instruction.size, stack }

def pushed (b : Body) (type : VerificationType) : Body :=
  { b with stack := b.stack.push type, maxStack := max b.maxStack (b.stack.size + 1).toUInt16 }

def touched (b : Body) (slot : UInt16) : Body := { b with maxLocals := max b.maxLocals (slot + 1) }

def assigned (b : Body) (slot : UInt16) (type : VerificationType) : Body :=
  { b with
    locals := (b.locals ++ Array.replicate (slot.toNat + 1 - b.locals.size) VerificationType.top).setIfInBounds
      slot.toNat type }

def branched (b : Body) (label : Nat) (stack : Array VerificationType) : Body :=
  { b with labels := b.labels.modify label fun l => { l.join stack b.locals with referenced := true } }

/-! ## Parts of calls -/

variable {b : Body}

theorem request_yields {r : Interning UInt16} {leads : ConstantPool → UInt16 → Prop} (h : ConstantPool.Answers r leads)
    (wf : b.pool.WellFormed) :
    Yields (request r) b (fun i b' => ∃ pool, b.pool.Gives leads i pool ∧ b' = { b with pool }) Fault.IsPool := by
  have hr := h b.pool wf
  unfold Yields request
  simp only
  cases run : r b.pool with
  | ok i pool => exact ⟨pool, hr.of_ok run, rfl⟩
  | error e pool => exact hr.of_error run

theorem emit_run (i : Instruction) (b : Body) : emit i b = .ok () (b.added b.pool (.plain i) b.stack) := rfl

theorem push_run (type : VerificationType) (b : Body) : push type b = .ok () (b.pushed type) := rfl

theorem setLocal_run (slot : UInt16) (type : VerificationType) (b : Body) :
    setLocal slot type b = .ok () (b.assigned slot type) := rfl

theorem pop_yields :
    Yields pop b (fun t b' => ∃ S, b.stack = S.push t ∧ b' = { b with stack := S }) (fun _ => b.stack.size < 1) := by
  unfold Yields pop
  cases h : b.stack.back? with
  | some t =>
    obtain ⟨S, hS⟩ := Array.back?_eq_some_iff.1 h
    exact ⟨S, hS, by simp [hS]⟩
  | none =>
    have : b.stack = #[] := by simpa using h
    simp [this]

theorem popMany_yields (n : Nat) {b : Body} :
    Yields (popMany n) b
      (fun _ b' => ∃ S popped, popped.size = n ∧ b.stack = S ++ popped ∧ b' = { b with stack := S })
      (fun _ => b.stack.size < n) := by
  induction n generalizing b with
  | zero => exact Yields.of_pure ⟨b.stack, #[], rfl, by simp, rfl⟩
  | succ n ih =>
    unfold popMany
    refine (pop_yields.mono (fun _ _ => id) (fun _ h => by omega)).bind ?_
    rintro t b' ⟨S, hS, rfl⟩
    refine ih.mono ?_ ?_
    · rintro _ b'' ⟨T, popped, hsize, hT, rfl⟩
      have hT : S = T ++ popped := hT
      refine ⟨T, popped.push t, by simp [hsize], ?_, rfl⟩
      rw [hS, hT, Array.push_append]
    · intro _ h
      have h : S.size < n := h
      rw [hS, Array.size_push]
      omega

theorem classType_yields (name : String) (wf : b.pool.WellFormed) :
    Yields (classType name) b
      (fun t b' => ∃ pool i, b.pool.Gives (·.IsClass · name) i pool ∧ t = .object i ∧ b' = { b with pool })
      Fault.IsPool := by
  refine (request_yields (ConstantPool.classRef_answers name) wf).bind ?_
  rintro i b' ⟨pool, hgives, rfl⟩
  exact Yields.of_pure ⟨pool, i, hgives, rfl, rfl⟩

end Body

/-- The verification type of the values of a Java type. -/
def JavaType.Stands (type : JavaType) (pool : ConstantPool) (t : VerificationType) : Prop :=
  if type.isIntLike then t = .integer else ∃ name i, type.classConstant? = some name ∧ t = .object i ∧ pool.IsClass i name

def JavaType.IsStackable (type : JavaType) : Prop := type.isIntLike ∨ type.classConstant?.isSome

theorem JavaType.Stands.mono {type : JavaType} {pool later : ConstantPool} {t : VerificationType}
    (hext : pool.Extends later) (h : type.Stands pool t) : type.Stands later t := by
  unfold JavaType.Stands at *
  split
  · simp_all
  · simp_all only
    obtain ⟨name, i, hname, ht, hi⟩ := h
    exact ⟨name, i, hname, ht, hi.mono hext⟩

def Instruction.LoadsInt (pool : ConstantPool) (value : Int32) : Instruction → Prop
  | .iconst n => value.toInt = (n.val : Int) - 1
  | .bipush v => value.toInt = v.toInt
  | .sipush v => value.toInt = v.toInt
  | .ldc index => pool.IsInteger index.toUInt16 value
  | .ldcWide index => pool.IsInteger index value
  | _ => False

def Instruction.LoadsText (pool : ConstantPool) (text : String) : Instruction → Prop
  | .ldc index => pool.IsString index.toUInt16 text
  | .ldcWide index => pool.IsString index text
  | _ => False

def Instruction.ldcOf (index : UInt16) : Instruction := if index ≤ 255 then .ldc index.toUInt8 else .ldcWide index

theorem toUInt16_toUInt8 {index : UInt16} (h : index ≤ 255) : index.toUInt8.toUInt16 = index := by
  have h : index.toNat ≤ 255 := h
  apply UInt16.toNat_inj.1
  rw [UInt8.toNat_toUInt16, UInt16.toNat_toUInt8]
  omega

theorem Instruction.loadsInt_ldcOf {pool : ConstantPool} {value : Int32} {index : UInt16}
    (h : pool.IsInteger index value) : (ldcOf index).LoadsInt pool value := by
  unfold ldcOf
  split
  · next small =>
    rw [LoadsInt, toUInt16_toUInt8 small]
    exact h
  · exact h

theorem Instruction.loadsText_ldcOf {pool : ConstantPool} {text : String} {index : UInt16}
    (h : pool.IsString index text) : (ldcOf index).LoadsText pool text := by
  unfold ldcOf
  split
  · next small =>
    rw [LoadsText, toUInt16_toUInt8 small]
    exact h
  · exact h

/-! ## Calls -/

/-- Types on the operand stack, the top last. -/
abbrev Types := Array VerificationType

/-- A way to a label with this operand stack agrees with the ways that are known. -/
def Label.Fits (l : Label) (stack : Array VerificationType) : Prop := ∀ expected, l.stack = some expected → expected = stack

/-- What a call takes off the operand stack and what its result is. -/
def MemberRef.Takes (m : MemberRef) (count : Nat) (result : JavaType) : Prop :=
  ∃ params, JavaType.ofMethodDescriptor? m.descriptor = some (params, result) ∧ params.length = count

theorem MemberRef.Takes.unique {m : MemberRef} {count count' : Nat} {result result' : JavaType}
    (h : m.Takes count result) (h' : m.Takes count' result') : count = count' ∧ result = result' := by
  obtain ⟨params, hm, rfl⟩ := h
  obtain ⟨params', hm', rfl⟩ := h'
  rw [hm] at hm'
  cases hm'
  exact ⟨rfl, rfl⟩

theorem MemberRef.Takes.result_of_ready {m : MemberRef} {count : Nat} {result : JavaType} {enough : Nat → Prop}
    (h : m.Takes count result)
    (ready : ∃ count result, m.Takes count result ∧ (result = .void ∨ result.IsStackable) ∧ enough count) :
    result = .void ∨ result.IsStackable := by
  obtain ⟨count', result', htakes, hresult, -⟩ := ready
  obtain ⟨-, rfl⟩ := h.unique htakes
  exact hresult

namespace Body

/-- The type of a value that is loaded: a reference has the type of its local variable, or else it is a string. -/
def Loads (locals : Types) (slot : UInt16) (kind : ValueKind) (pool : ConstantPool) (t : VerificationType) : Prop :=
  match kind with
  | .int => t = .integer
  | .reference =>
    if (locals[slot.toNat]?.getD .top).isReference then locals[slot.toNat]? = some t
    else ∃ c, t = .object c ∧ pool.IsClass c stringClass

def Returned (b b' : Body) (result : JavaType) (pool : ConstantPool) : Prop :=
  (result = .void ∧ b' = { b with pool }) ∨
    (result ≠ .void ∧ ∃ t, result.Stands pool t ∧ b' = ({ b with pool } : Body).pushed t)

/-- How the types change when a constructor has run on `receiver`. -/
def Constructs (thisClass : UInt16) (m : MemberRef) (pool : ConstantPool) (receiver : VerificationType)
    (f : VerificationType → VerificationType) : Prop :=
  f = id ∨ ∃ j, (j = thisClass ∨ pool.IsClass j m.owner) ∧ f = fun t => if t = receiver then .object j else t

theorem Constructs.mono {thisClass : UInt16} {m : MemberRef} {pool later : ConstantPool} {receiver : VerificationType}
    {f : VerificationType → VerificationType} (hext : pool.Extends later) (h : Constructs thisClass m pool receiver f) :
    Constructs thisClass m later receiver f := by
  obtain rfl | ⟨j, hj | hj, rfl⟩ := h
  · exact .inl rfl
  · exact .inr ⟨j, .inl hj, rfl⟩
  · exact .inr ⟨j, .inr (hj.mono hext), rfl⟩

end Body

/-- What a call that succeeds does to a body. -/
def Call.Effect (b b' : Body) : Call → Prop
  | .pushInt value => ∃ pool i, b.pool.GrowsTo pool ∧ i.LoadsInt pool value ∧
      b' = (b.added pool (.plain i) b.stack).pushed .integer
  | .pushText text => ∃ pool i c, b.pool.GrowsTo pool ∧ i.LoadsText pool text ∧ pool.IsClass c Body.stringClass ∧
      b' = (b.added pool (.plain i) b.stack).pushed (.object c)
  | .load slot kind => ∃ pool t, b.pool.GrowsTo pool ∧ Body.Loads b.locals slot kind pool t ∧
      b' = ((b.added pool (.plain (.load kind (.ofIndex slot))) b.stack).pushed t).touched slot
  | .store slot kind => ∃ S : Types, ∃ t, b.stack = S.push t ∧
      b' = ((b.added b.pool (.plain (.store kind (.ofIndex slot))) S).assigned slot t).touched slot
  | .arithmetic op => ∃ S popped : Types, popped.size = 2 ∧ b.stack = S ++ popped ∧
      b' = (b.added b.pool (.plain (.arithmetic op)) S).pushed .integer
  | .newLabel => b' = { b with labels := b.labels.push ⟨none, false, b.locals, none⟩ }
  | .branch condition label => ∃ S popped : Types, ∃ l, popped.size = 2 ∧ b.stack = S ++ popped ∧
      b.labels[label]? = some l ∧ l.Fits S ∧
      b' = (b.added b.pool (.branch condition label) S).branched label S
  | .jump label => ∃ l, b.labels[label]? = some l ∧ l.Fits b.stack ∧
      b' = { (b.added b.pool (.jump label) #[]).branched label b.stack with reachable := false }
  | .bind label => ∃ l, b.labels[label]? = some l ∧ l.position = none ∧
      (b.reachable = true ∧ l.Fits b.stack ∧
          b' = { b with labels := b.labels.modify label fun l =>
            { l.join b.stack b.locals with position := some b.items.size } } ∨
        b.reachable = false ∧
          b' = { b with
            labels := b.labels.modify label fun l => { l with position := some b.items.size }
            stack := l.stack.getD #[]
            locals := l.locals
            reachable := true })
  | .getStatic m => ∃ pool i type t, b.pool.GrowsTo pool ∧ JavaType.ofFieldDescriptor? m.descriptor = some type ∧
      type.Stands pool t ∧ pool.IsField i m ∧ b' = (b.added pool (.plain (.getStatic i)) b.stack).pushed t
  | .putStatic m => ∃ pool i, ∃ S : Types, ∃ t, b.pool.GrowsTo pool ∧ pool.IsField i m ∧ b.stack = S.push t ∧
      b' = b.added pool (.plain (.putStatic i)) S
  | .invokeVirtual m => ∃ pool i count result, ∃ S : Types, ∃ receiver popped, b.pool.GrowsTo pool ∧ m.Takes count result ∧
      pool.IsMethod i m ∧ popped.size = count ∧ b.stack = S.push receiver ++ popped ∧
      (b.added pool (.plain (.invokeVirtual i)) S).Returned b' result pool
  | .invokeStatic m => ∃ pool i count result, ∃ S popped : Types, b.pool.GrowsTo pool ∧ m.Takes count result ∧
      pool.IsMethod i m ∧ popped.size = count ∧ b.stack = S ++ popped ∧
      (b.added pool (.plain (.invokeStatic i)) S).Returned b' result pool
  | .invokeSpecial m => ∃ pool i count result, ∃ S : Types, ∃ receiver popped f, b.pool.GrowsTo pool ∧ m.Takes count result ∧
      pool.IsMethod i m ∧ popped.size = count ∧ b.stack = S.push receiver ++ popped ∧
      Body.Constructs b.thisClass m pool receiver f ∧
      ({ b.added pool (.plain (.invokeSpecial i)) (S.map f) with locals := b.locals.map f } : Body).Returned b' result pool
  | .new className => ∃ pool i, b.pool.GrowsTo pool ∧ pool.IsClass i className ∧ b.size ≤ 65535 ∧
      b' = (b.added pool (.plain (.new i)) b.stack).pushed (.uninitialized b.size.toUInt16)
  | .dup => ∃ S : Types, ∃ t, b.stack = S.push t ∧ b' = (b.added b.pool (.plain .dup) b.stack).pushed t

def Call.Ready (b : Body) : Call → Prop
  | .pushInt _ | .pushText _ | .load .. | .newLabel => True
  | .store .. => 1 ≤ b.stack.size
  | .arithmetic _ => 2 ≤ b.stack.size
  | .branch _ label => ∃ S popped : Types, ∃ l, popped.size = 2 ∧ b.stack = S ++ popped ∧ b.labels[label]? = some l ∧ l.Fits S
  | .jump label => ∃ l, b.labels[label]? = some l ∧ l.Fits b.stack
  | .bind label => ∃ l, b.labels[label]? = some l ∧ l.position = none ∧ (b.reachable = true → l.Fits b.stack)
  | .getStatic m => ∃ type, JavaType.ofFieldDescriptor? m.descriptor = some type ∧ type.IsStackable
  | .putStatic m => (JavaType.ofFieldDescriptor? m.descriptor).isSome ∧ 1 ≤ b.stack.size
  | .invokeVirtual m | .invokeSpecial m => ∃ count result, m.Takes count result ∧
      (result = .void ∨ result.IsStackable) ∧ count + 1 ≤ b.stack.size
  | .invokeStatic m => ∃ count result, m.Takes count result ∧ (result = .void ∨ result.IsStackable) ∧
      count ≤ b.stack.size
  | .new _ => b.size ≤ 65535
  | .dup => 1 ≤ b.stack.size

/-- The call does what its effect says; it fails only for a reason of the pool, or when it was not ready. -/
def Call.Behaves (c : Call) (b : Body) : Prop :=
  Yields c.perform b (fun _ b' => c.Effect b b') fun f => f.IsPool ∨ ¬ c.Ready b

namespace Body

variable {b : Body}

theorem pushInt_behaves (value : Int32) (wf : b.pool.WellFormed) : (Call.pushInt value).Behaves b := by
  have plain : ∀ i : Instruction, i.LoadsInt b.pool value →
      Yields (do emit i; push .integer) b (fun _ b' => (Call.pushInt value).Effect b b')
        fun f => f.IsPool ∨ ¬ (Call.pushInt value).Ready b := by
    intro i hi
    exact Yields.step (emit_run i b) (Yields.of_modify ⟨b.pool, i, .refl wf, hi, rfl⟩)
  have hrange := value.toInt_lt
  have hrange' := value.le_toInt
  unfold Call.Behaves Call.perform pushInt
  simp only
  split
  · next h => exact plain _ (by simp only [Instruction.LoadsInt]; omega)
  · split
    · next h =>
      refine plain _ ?_
      simp only [Instruction.LoadsInt]
      rw [Int8.toInt_ofInt_of_le (by omega) (by omega)]
    · split
      · next h =>
        refine plain _ ?_
        simp only [Instruction.LoadsInt]
        rw [Int16.toInt_ofInt_of_le (by omega) (by omega)]
      · refine ((request_yields (ConstantPool.integer_answers value) wf).mono (fun _ _ => id) fun _ => .inl).bind ?_
        rintro index b' ⟨pool, ⟨hext, hwf, hi⟩, rfl⟩
        exact Yields.step (emit_run _ _) (Yields.of_modify
          ⟨pool, .ldcOf index, ⟨hext, hwf⟩, Instruction.loadsInt_ldcOf hi, rfl⟩)

theorem pushText_behaves (text : String) (wf : b.pool.WellFormed) : (Call.pushText text).Behaves b := by
  refine ((request_yields (ConstantPool.string_answers text) wf).mono (fun _ _ => id) fun _ => .inl).bind ?_
  rintro index b' ⟨pool, ⟨hext, hwf, hi⟩, rfl⟩
  refine Yields.step (emit_run _ _) ?_
  refine ((classType_yields stringClass (b := added _ _ _ _) hwf).mono (fun _ _ => id) fun _ => .inl).bind ?_
  rintro t b'' ⟨pool', c, ⟨hext', hwf', hc⟩, rfl, rfl⟩
  exact Yields.of_modify ⟨pool', .ldcOf index, c, ⟨hext.trans hext', hwf'⟩,
    Instruction.loadsText_ldcOf (hi.mono hext'), hc, rfl⟩

theorem loadedType_yields (slot : UInt16) (kind : ValueKind) (wf : b.pool.WellFormed) :
    Yields (loadedType slot kind) b
      (fun t b' => ∃ pool, b.pool.GrowsTo pool ∧ Loads b.locals slot kind pool t ∧ b' = { b with pool })
      Fault.IsPool := by
  cases kind with
  | int => exact Yields.of_pure ⟨b.pool, .refl wf, rfl, rfl⟩
  | reference =>
    apply Yields.of_get
    simp only [Loads]
    split
    · next href =>
      refine Yields.of_pure ⟨b.pool, .refl wf, ?_, rfl⟩
      cases hl : b.locals[slot.toNat]? with
      | some t => rfl
      | none => simp [hl, VerificationType.isReference] at href
    · refine (classType_yields stringClass wf).imp ?_
      rintro t b' ⟨pool, c, ⟨hext, hwf, hc⟩, rfl, rfl⟩
      exact ⟨pool, ⟨hext, hwf⟩, ⟨c, rfl, hc⟩, rfl⟩

theorem load_behaves (slot : UInt16) (kind : ValueKind) (wf : b.pool.WellFormed) : (Call.load slot kind).Behaves b := by
  refine Yields.step (emit_run _ _) ?_
  refine ((loadedType_yields slot kind (b := added _ _ _ _) wf).mono (fun _ _ => id) fun _ => .inl).bind ?_
  rintro t b' ⟨pool, hgrows, hloads, rfl⟩
  exact Yields.step (push_run _ _) (Yields.of_modify ⟨pool, t, hgrows, hloads, rfl⟩)

theorem store_behaves (slot : UInt16) (kind : ValueKind) : (Call.store slot kind).Behaves b := by
  refine (pop_yields.mono (fun _ _ => id) fun _ h => .inr (by simp only [Call.Ready]; omega)).bind ?_
  rintro t b' ⟨S, hS, rfl⟩
  refine Yields.step (emit_run _ _) (Yields.step (setLocal_run _ _ _) (Yields.of_modify ?_))
  exact ⟨S, t, hS, rfl⟩

theorem arithmetic_behaves (op : Arithmetic) : (Call.arithmetic op).Behaves b := by
  refine ((popMany_yields 2).mono (fun _ _ => id) fun _ h => .inr (by simp only [Call.Ready]; omega)).bind ?_
  rintro _ b' ⟨S, popped, hsize, hS, rfl⟩
  exact Yields.step (emit_run _ _) (Yields.of_modify ⟨S, popped, hsize, hS, rfl⟩)

theorem newLabel_behaves : Call.newLabel.Behaves b := Yields.of_modify rfl

/-! ### Labels -/

theorem recordEdge_yields (label : Nat) :
    Yields (recordEdge label) b
      (fun _ b' => ∃ l, b.labels[label]? = some l ∧ l.Fits b.stack ∧
        b' = { b with labels := b.labels.modify label (·.join b.stack b.locals) })
      (fun _ => ¬ ∃ l, b.labels[label]? = some l ∧ l.Fits b.stack) := by
  apply Yields.of_get
  cases hl : b.labels[label]? with
  | none => exact Yields.of_throw (by simp)
  | some l =>
    cases hs : l.stack with
    | none =>
      have hfits : l.Fits b.stack := by simp [Label.Fits, hs]
      simp only [hs]
      exact Yields.of_modify ⟨l, rfl, hfits, rfl⟩
    | some expected =>
      have hiff : l.Fits b.stack ↔ expected = b.stack := by simp [Label.Fits, hs]
      simp only [hs]
      by_cases heq : expected = b.stack
      · rw [if_neg (not_not_intro heq)]
        exact Yields.of_modify ⟨l, rfl, hiff.2 heq, rfl⟩
      · rw [if_pos heq]
        refine Yields.of_throw ?_
        rintro ⟨l', hl', hfits⟩
        cases hl'
        exact heq (hiff.1 hfits)

theorem modify_modify (labels : Array Label) (label : Nat) (f g : Label → Label) :
    (labels.modify label f).modify label g = labels.modify label fun l => g (f l) := by
  apply Array.ext
  · simp
  · intro i _ _
    simp only [Array.getElem_modify]
    split <;> rfl

theorem branch_behaves (condition : Condition) (label : Nat) : (Call.branch condition label).Behaves b := by
  have hshort : b.stack.size < 2 → ¬ (Call.branch condition label).Ready b := by
    rintro h ⟨S, popped, l, hsize, hS, -⟩
    rw [hS, Array.size_append] at h
    omega
  refine ((popMany_yields 2).mono (fun _ _ => id) fun _ h => .inr (hshort h)).bind ?_
  rintro _ b' ⟨S, popped, hsize, hS, rfl⟩
  have hunfit : (¬ ∃ l, b.labels[label]? = some l ∧ l.Fits S) → ¬ (Call.branch condition label).Ready b := by
    rintro h ⟨T, popped', l, hsize', hT, hl, hfits⟩
    obtain ⟨rfl, -⟩ := Array.append_inj' (hS.symm.trans hT) (by rw [hsize, hsize'])
    exact h ⟨l, hl, hfits⟩
  refine ((recordEdge_yields label).mono (fun _ _ => id) fun _ h => .inr (hunfit h)).bind ?_
  rintro _ b' ⟨l, hl, hfits, rfl⟩
  refine Yields.of_modify ⟨S, popped, l, hsize, hS, hl, hfits, ?_⟩
  simp only [added, branched, modify_modify]

theorem jump_behaves (label : Nat) : (Call.jump label).Behaves b := by
  refine ((recordEdge_yields label).mono (fun _ _ => id) fun _ h => .inr h).bind ?_
  rintro _ b' ⟨l, hl, hfits, rfl⟩
  refine Yields.of_modify ⟨l, hl, hfits, ?_⟩
  simp only [added, branched, modify_modify]

theorem bind_behaves (label : Nat) : (Call.bind label).Behaves b := by
  apply Yields.of_get
  cases hl : b.labels[label]? with
  | none => exact Yields.of_throw (.inr (by simp [Call.Ready, hl]))
  | some l =>
    simp only
    split
    · next hbound =>
      refine Yields.of_throw (.inr ?_)
      rintro ⟨l', hl', hnone, -⟩
      rw [hl] at hl'
      cases hl'
      simp [hnone] at hbound
    · next hfree =>
      have hnone : l.position = none := by simpa using hfree
      apply Yields.of_get
      cases hr : b.reachable with
      | true =>
        simp only [if_true]
        have hunfit : (¬ ∃ l, b.labels[label]? = some l ∧ l.Fits b.stack) → ¬ (Call.bind label).Ready b := by
          rintro h ⟨l', hl', -, hfits⟩
          exact h ⟨l', hl', hfits hr⟩
        refine ((recordEdge_yields label).mono (fun _ _ => id) fun _ h => .inr (hunfit h)).bind ?_
        rintro _ b' ⟨l', hl', hfits, rfl⟩
        rw [hl] at hl'
        cases hl'
        refine Yields.of_modify ⟨l, hl, hnone, .inl ⟨hr, hfits, ?_⟩⟩
        simp only [modify_modify, hr, if_true]
      | false =>
        refine Yields.of_modify ⟨l, hl, hnone, .inr ⟨hr, ?_⟩⟩
        simp [hr, hl, Array.getElem?_modify]

/-! ### Members of classes -/

theorem typeOf_yields (type : JavaType) (wf : b.pool.WellFormed) :
    Yields (typeOf type) b
      (fun t b' => ∃ pool, b.pool.GrowsTo pool ∧ type.Stands pool t ∧ b' = { b with pool })
      (fun f => f.IsPool ∨ ¬ type.IsStackable) := by
  unfold typeOf
  cases hint : type.isIntLike with
  | true => exact Yields.of_pure ⟨b.pool, .refl wf, by simp [JavaType.Stands, hint], rfl⟩
  | false =>
    simp only [Bool.false_eq_true, if_false]
    cases hname : type.classConstant? with
    | none => exact Yields.of_throw (.inr (by simp [JavaType.IsStackable, hint, hname]))
    | some name =>
      refine (classType_yields name wf).mono ?_ fun _ => .inl
      rintro t b' ⟨pool, i, ⟨hext, hwf, hi⟩, rfl, rfl⟩
      refine ⟨pool, ⟨hext, hwf⟩, ?_, rfl⟩
      rw [JavaType.Stands, if_neg (by simp [hint])]
      exact ⟨name, i, hname, rfl, hi⟩

theorem pushResult_yields (result : JavaType) (wf : b.pool.WellFormed) :
    Yields (pushResult result) b (fun _ b' => ∃ pool, b.pool.GrowsTo pool ∧ b.Returned b' result pool)
      (fun f => f.IsPool ∨ ¬ (result = .void ∨ result.IsStackable)) := by
  unfold pushResult
  by_cases hvoid : result = .void
  · rw [if_neg (not_not_intro hvoid)]
    exact Yields.of_pure ⟨b.pool, .refl wf, .inl ⟨hvoid, rfl⟩⟩
  · rw [if_pos hvoid]
    refine ((typeOf_yields result wf).mono (fun _ _ => id) ?_).bind ?_
    · rintro f (h | h)
      · exact .inl h
      · exact .inr (by simp [hvoid, h])
    · rintro t b' ⟨pool, hgrows, ht, rfl⟩
      exact Yields.of_modify ⟨pool, hgrows, .inr ⟨hvoid, t, ht, rfl⟩⟩

theorem popArguments_yields (m : MemberRef) :
    Yields (popArguments m.descriptor) b
      (fun result b' => ∃ count S popped, m.Takes count result ∧ popped.size = count ∧ b.stack = S ++ popped ∧
        b' = { b with stack := S })
      (fun _ => ¬ ∃ count result, m.Takes count result ∧ count ≤ b.stack.size) := by
  unfold popArguments
  cases hm : JavaType.ofMethodDescriptor? m.descriptor with
  | none => exact Yields.of_throw (by simp [MemberRef.Takes, hm])
  | some signature =>
    obtain ⟨params, result⟩ := signature
    refine ((popMany_yields params.length).mono (fun _ _ => id) ?_).bind ?_
    · rintro _ h ⟨count, result', ⟨params', hm', rfl⟩, hle⟩
      rw [hm] at hm'
      cases hm'
      omega
    · rintro _ b' ⟨S, popped, hsize, hS, rfl⟩
      exact Yields.of_pure ⟨params.length, S, popped, ⟨params, hm, rfl⟩, hsize, hS, rfl⟩

theorem fieldType_yields (descriptor : String) :
    Yields (fieldType descriptor) b (fun type b' => JavaType.ofFieldDescriptor? descriptor = some type ∧ b' = b)
      (fun _ => JavaType.ofFieldDescriptor? descriptor = none) := by
  unfold fieldType
  cases h : JavaType.ofFieldDescriptor? descriptor with
  | none => exact Yields.of_throw rfl
  | some type => exact Yields.of_pure ⟨rfl, rfl⟩

theorem getStatic_behaves (m : MemberRef) (wf : b.pool.WellFormed) : (Call.getStatic m).Behaves b := by
  refine ((fieldType_yields m.descriptor).mono (fun _ _ => id) fun _ h => .inr (by simp [Call.Ready, h])).bind ?_
  rintro type _ ⟨hm, rfl⟩
  refine ((typeOf_yields type wf).mono (fun _ _ => id) ?_).bind ?_
  · rintro f (h | h)
    · exact .inl h
    · exact .inr (by simp [Call.Ready, hm, h])
  · rintro t b' ⟨pool, hgrows, ht, rfl⟩
    refine ((request_yields (ConstantPool.fieldRef_answers m) hgrows.2).mono (fun _ _ => id) fun _ => .inl).bind ?_
    rintro i b' ⟨pool', ⟨hext, hwf, hi⟩, rfl⟩
    refine Yields.step (emit_run _ _) (Yields.of_modify ?_)
    exact ⟨pool', i, type, t, hgrows.trans ⟨hext, hwf⟩, hm, ht.mono hext, hi, rfl⟩

theorem putStatic_behaves (m : MemberRef) (wf : b.pool.WellFormed) : (Call.putStatic m).Behaves b := by
  refine ((fieldType_yields m.descriptor).mono (fun _ _ => id) fun _ h => .inr (by simp [Call.Ready, h])).bind ?_
  rintro type _ ⟨hm, rfl⟩
  refine ((request_yields (ConstantPool.fieldRef_answers m) wf).mono (fun _ _ => id) fun _ => .inl).bind ?_
  rintro i b' ⟨pool, ⟨hext, hwf, hi⟩, rfl⟩
  refine (pop_yields.mono (fun _ _ => id) ?_).bind ?_
  · intro _ h
    exact .inr fun ready => Nat.not_lt.2 ready.2 h
  · rintro t b' ⟨S, hS, rfl⟩
    exact Yields.of_modify ⟨pool, i, S, t, ⟨hext, hwf⟩, hi, hS, rfl⟩

theorem invoke_yields (m : MemberRef) (make : UInt16 → Instruction) (result : JavaType) (wf : b.pool.WellFormed) :
    Yields (do emit (make (← methodIndex m)); pushResult result) b
      (fun _ b' => ∃ pool i, b.pool.GrowsTo pool ∧ pool.IsMethod i m ∧
        (b.added pool (.plain (make i)) b.stack).Returned b' result pool)
      (fun f => f.IsPool ∨ ¬ (result = .void ∨ result.IsStackable)) := by
  refine ((request_yields (ConstantPool.methodRef_answers m) wf).mono (fun _ _ => id) fun _ => .inl).bind ?_
  rintro i b' ⟨pool, ⟨hext, hwf, hi⟩, rfl⟩
  refine Yields.step (emit_run _ _) ((pushResult_yields result (b := added _ _ _ _) hwf).imp ?_)
  rintro _ b' ⟨pool', hgrows, hreturned⟩
  refine ⟨pool', i, ⟨hext.trans hgrows.1, hgrows.2⟩, hi.mono hgrows.1, hreturned⟩

theorem invokeStatic_behaves (m : MemberRef) (wf : b.pool.WellFormed) : (Call.invokeStatic m).Behaves b := by
  have hnot : (¬ ∃ count result, m.Takes count result ∧ count ≤ b.stack.size) → ¬ (Call.invokeStatic m).Ready b := by
    rintro h ⟨count, result, htakes, -, hle⟩
    exact h ⟨count, result, htakes, hle⟩
  refine ((popArguments_yields m).mono (fun _ _ => id) fun _ h => .inr (hnot h)).bind ?_
  rintro result b' ⟨count, S, popped, htakes, hsize, hS, rfl⟩
  refine (invoke_yields m .invokeStatic result (b := { b with stack := S }) wf).mono ?_ ?_
  · rintro _ b' ⟨pool, i, hgrows, hi, hreturned⟩
    exact ⟨pool, i, count, result, S, popped, hgrows, htakes, hi, hsize, hS, hreturned⟩
  · intro _ h
    exact h.imp_right fun hresult ready => hresult (htakes.result_of_ready ready)

theorem popReceiver_yields (m : MemberRef) :
    Yields (do
      let result ← popArguments m.descriptor
      let receiver ← pop
      return (result, receiver)) b
      (fun r b' => ∃ count S popped, m.Takes count r.1 ∧ popped.size = count ∧ b.stack = S.push r.2 ++ popped ∧
        b' = { b with stack := S })
      (fun _ => ¬ ∃ count result, m.Takes count result ∧ count + 1 ≤ b.stack.size) := by
  refine ((popArguments_yields m).mono (fun _ _ => id) ?_).bind ?_
  · rintro _ h ⟨count, result, htakes, hle⟩
    exact h ⟨count, result, htakes, by omega⟩
  rintro result b' ⟨count, S, popped, htakes, hsize, hS, rfl⟩
  refine (pop_yields.mono (fun _ _ => id) ?_).bind ?_
  · rintro _ h ⟨count', result', htakes', hle⟩
    obtain ⟨rfl, -⟩ := htakes.unique htakes'
    have h : S.size < 1 := h
    rw [hS, Array.size_append] at hle
    omega
  · rintro receiver b' ⟨T, hT, rfl⟩
    have hT : S = T.push receiver := hT
    exact Yields.of_pure ⟨count, T, popped, htakes, hsize, by rw [hS, hT], rfl⟩

theorem invokeVirtual_behaves (m : MemberRef) (wf : b.pool.WellFormed) : (Call.invokeVirtual m).Behaves b := by
  have hperform : (Call.invokeVirtual m).perform = (do
      let r ← (do let result ← popArguments m.descriptor; let receiver ← pop; return (result, receiver))
      emit (.invokeVirtual (← methodIndex m)); pushResult r.1) := by
    simp [Call.perform, invokeVirtual]
  have hnot : (¬ ∃ count result, m.Takes count result ∧ count + 1 ≤ b.stack.size) →
      ¬ (Call.invokeVirtual m).Ready b := by
    rintro h ⟨count, result, htakes, -, hle⟩
    exact h ⟨count, result, htakes, hle⟩
  rw [Call.Behaves, hperform]
  refine ((popReceiver_yields m).mono (fun _ _ => id) fun _ h => .inr (hnot h)).bind ?_
  rintro ⟨result, receiver⟩ b' ⟨count, S, popped, htakes, hsize, hS, rfl⟩
  refine (invoke_yields m .invokeVirtual result (b := { b with stack := S }) wf).mono ?_ ?_
  · rintro _ b' ⟨pool, i, hgrows, hi, hreturned⟩
    exact ⟨pool, i, count, result, S, receiver, popped, hgrows, htakes, hi, hsize, hS, hreturned⟩
  · intro _ h
    exact h.imp_right fun hresult ready => hresult (htakes.result_of_ready ready)

theorem construct_yields (m : MemberRef) (receiver : VerificationType) (wf : b.pool.WellFormed) :
    Yields (do
      if m.name = "<init>" then
        match receiver with
        | .uninitializedThis => construct receiver (.object (← get).thisClass)
        | .uninitialized _ => construct receiver (← classType m.owner)
        | _ => pure ()) b
      (fun _ b' => ∃ pool f, b.pool.GrowsTo pool ∧ Constructs b.thisClass m pool receiver f ∧
        b' = { b with pool, stack := b.stack.map f, locals := b.locals.map f }) Fault.IsPool := by
  have hkeep : ∃ pool f, b.pool.GrowsTo pool ∧ Constructs b.thisClass m pool receiver f ∧
      b = { b with pool, stack := b.stack.map f, locals := b.locals.map f } :=
    ⟨b.pool, id, .refl wf, .inl rfl, by simp⟩
  by_cases hname : m.name = "<init>"
  · simp only [if_pos hname]
    cases receiver with
    | uninitializedThis =>
      exact Yields.of_get (Yields.of_modify ⟨b.pool, _, .refl wf, .inr ⟨b.thisClass, .inl rfl, rfl⟩, rfl⟩)
    | uninitialized address =>
      refine (classType_yields m.owner wf).bind ?_
      rintro t b' ⟨pool, i, ⟨hext, hwf, hi⟩, rfl, rfl⟩
      exact Yields.of_modify ⟨pool, _, ⟨hext, hwf⟩, .inr ⟨i, .inr hi, rfl⟩, rfl⟩
    | _ => exact Yields.of_pure hkeep
  · simp only [if_neg hname]
    exact Yields.of_pure hkeep

theorem invokeSpecial_eq (m : MemberRef) :
    invokeSpecial m = (do
      let r ← (do let result ← popArguments m.descriptor; let receiver ← pop; return (result, receiver))
      emit (.invokeSpecial (← methodIndex m))
      (do
        if m.name = "<init>" then
          match r.2 with
          | .uninitializedThis => construct r.2 (.object (← get).thisClass)
          | .uninitialized _ => construct r.2 (← classType m.owner)
          | _ => pure ())
      pushResult r.1) := by
  simp only [invokeSpecial, bind_assoc, pure_bind]
  refine bind_congr fun result => bind_congr fun receiver => bind_congr fun index => bind_congr fun _ => ?_
  by_cases hname : m.name = "<init>"
  · simp only [if_pos hname]
    cases receiver <;> simp
  · simp only [if_neg hname]
    simp

theorem invokeSpecial_behaves (m : MemberRef) (wf : b.pool.WellFormed) : (Call.invokeSpecial m).Behaves b := by
  have hnot : (¬ ∃ count result, m.Takes count result ∧ count + 1 ≤ b.stack.size) →
      ¬ (Call.invokeSpecial m).Ready b := by
    rintro h ⟨count, result, htakes, -, hle⟩
    exact h ⟨count, result, htakes, hle⟩
  rw [Call.Behaves, Call.perform, invokeSpecial_eq]
  refine ((popReceiver_yields m).mono (fun _ _ => id) fun _ h => .inr (hnot h)).bind ?_
  rintro ⟨result, receiver⟩ b' ⟨count, S, popped, htakes, hsize, hS, rfl⟩
  refine ((request_yields (ConstantPool.methodRef_answers m) (b := { b with stack := S }) wf).mono (fun _ _ => id) fun _ => .inl).bind ?_
  rintro i b' ⟨pool, ⟨hext, hwf, hi⟩, rfl⟩
  refine Yields.step (emit_run _ _) ?_
  refine ((construct_yields m receiver (b := added _ _ _ _) hwf).mono (fun _ _ => id) fun _ => .inl).bind ?_
  rintro _ b' ⟨pool', f, hgrows, hf, rfl⟩
  refine (pushResult_yields result hgrows.2).mono ?_ ?_
  · rintro _ b' ⟨pool'', hgrows', hreturned⟩
    exact ⟨pool'', i, count, result, S, receiver, popped, f, ⟨(hext.trans hgrows.1).trans hgrows'.1, hgrows'.2⟩, htakes,
      hi.mono (hgrows.1.trans hgrows'.1), hsize, hS, hf.mono hgrows'.1, hreturned⟩
  · intro _ h
    exact h.imp_right fun hresult ready => hresult (htakes.result_of_ready ready)

theorem new_behaves (className : String) (wf : b.pool.WellFormed) : (Call.new className).Behaves b := by
  apply Yields.of_get
  by_cases hsize : b.size > 65535
  · simp only [if_pos hsize]
    exact Yields.of_throw (.inr (Nat.not_le.2 hsize))
  · simp only [if_neg hsize]
    refine ((request_yields (ConstantPool.classRef_answers className) wf).mono (fun _ _ => id) fun _ => .inl).bind ?_
    rintro i b' ⟨pool, ⟨hext, hwf, hi⟩, rfl⟩
    exact Yields.step (emit_run _ _) (Yields.of_modify ⟨pool, i, ⟨hext, hwf⟩, hi, Nat.le_of_not_lt hsize, rfl⟩)

theorem dup_behaves : Call.dup.Behaves b := by
  apply Yields.of_get
  cases h : b.stack.back? with
  | none =>
    have hempty : b.stack = #[] := by simpa using h
    exact Yields.of_throw (.inr (by simp [Call.Ready, hempty]))
  | some t =>
    obtain ⟨S, hS⟩ := Array.back?_eq_some_iff.1 h
    exact Yields.step (emit_run _ _) (Yields.of_modify ⟨S, t, hS, rfl⟩)

end Body

theorem Call.behaves (c : Call) {b : Body} (wf : b.pool.WellFormed) : c.Behaves b := by
  cases c with
  | pushInt value => exact Body.pushInt_behaves value wf
  | pushText text => exact Body.pushText_behaves text wf
  | load slot kind => exact Body.load_behaves slot kind wf
  | store slot kind => exact Body.store_behaves slot kind
  | arithmetic op => exact Body.arithmetic_behaves op
  | newLabel => exact Body.newLabel_behaves
  | branch condition label => exact Body.branch_behaves condition label
  | jump label => exact Body.jump_behaves label
  | bind label => exact Body.bind_behaves label
  | getStatic m => exact Body.getStatic_behaves m wf
  | putStatic m => exact Body.putStatic_behaves m wf
  | invokeVirtual m => exact Body.invokeVirtual_behaves m wf
  | invokeStatic m => exact Body.invokeStatic_behaves m wf
  | invokeSpecial m => exact Body.invokeSpecial_behaves m wf
  | new className => exact Body.new_behaves className wf
  | dup => exact Body.dup_behaves

end KnightCode
