import KnightCode.Proofs.Runs

/-!
# Calls that may fail

What a call leaves behind, be it in a failure, whatever the constant pool holds. A call that is not about a label adds
at most plain instructions and leaves the labels alone, and most of these calls take and give a fixed number of values.
A call about a label has its effect or adds nothing. So `Call.step` says all that one more call can do to the code.
-/

namespace KnightCode

namespace Body

/-- Plain instructions may have been added; the labels are as they were. -/
structure Amends (b b' : Body) : Prop where
  labels : b'.labels = b.labels
  reachable : b'.reachable = b.reachable
  code : ∃ code : List Instruction,
    b'.items = b.items ++ (code.map Item.plain).toArray ∧ b'.size = b.size + codeSize code

namespace Amends

theorem of_same {b b' : Body} (labels : b'.labels = b.labels) (reachable : b'.reachable = b.reachable)
    (items : b'.items = b.items) (size : b'.size = b.size) : b.Amends b' :=
  ⟨labels, reachable, [], by simp [items], by simp [size]⟩

theorem refl (b : Body) : b.Amends b := .of_same rfl rfl rfl rfl

theorem trans {a b c : Body} (hab : a.Amends b) (hbc : b.Amends c) : a.Amends c := by
  obtain ⟨first, hitems, hsize⟩ := hab.code
  obtain ⟨second, hitems', hsize'⟩ := hbc.code
  refine ⟨hbc.labels.trans hab.labels, hbc.reachable.trans hab.reachable, first ++ second, ?_, ?_⟩
  · simp [hitems', hitems]
  · rw [hsize', hsize, codeSize_append, Nat.add_assoc]

end Amends

/-- `taken` types have been taken off the operand stack, and then `given` types have been put on it. -/
def Exchanges (taken given : Nat) (b b' : Body) : Prop :=
  ∃ rest popped pushed : Types, b.stack = rest ++ popped ∧ popped.size = taken ∧ b'.stack = rest ++ pushed ∧
    pushed.size = given

namespace Exchanges

theorem of_eq {b b' : Body} (h : b'.stack = b.stack) : Exchanges 0 0 b b' :=
  ⟨b.stack, #[], #[], by simp, rfl, by simp [h], rfl⟩

/-- What is taken later comes from what has just been given, as far as that goes. -/
theorem trans {n k n' k' : Nat} {a b c : Body} (hab : Exchanges n k a b) (hbc : Exchanges n' k' b c) :
    Exchanges (n + (n' - k)) (k - n' + k') a c := by
  obtain ⟨rest, popped, pushed, ha, hpopped, hb, hpushed⟩ := hab
  obtain ⟨rest', popped', pushed', hb', hpopped', hc, hpushed'⟩ := hbc
  rcases Array.append_eq_append_iff.1 (hb.symm.trans hb') with ⟨between, rfl, rfl⟩ | ⟨between, rfl, rfl⟩
  · rw [Array.size_append] at hpushed
    exact ⟨rest, popped, between ++ pushed', ha, by omega, by rw [hc, Array.append_assoc],
      by rw [Array.size_append]; omega⟩
  · rw [Array.size_append] at hpopped'
    exact ⟨rest', between ++ popped, pushed', by rw [ha, Array.append_assoc], by rw [Array.size_append]; omega, hc,
      by omega⟩

end Exchanges

/-! ## Work that is not about labels -/

def Amending {α : Type} (work : Build α) : Prop := ∀ b : Body, b.Amends (lastState (work b))

/-- Besides, the work exchanges a fixed number of values if it succeeds. -/
structure Straight {α : Type} (taken given : Nat) (work : Build α) : Prop where
  amending : Amending work
  exchanges : ∀ {b : Body} {a : α} {b' : Body}, work b = .ok a b' → Exchanges taken given b b'

section Laws

variable {α β : Type} {work : Build α} {next : α → Build β} {n k n' k' : Nat}

theorem Amending.bind (h : Amending work) (hnext : ∀ a, Amending (next a)) : Amending (work >>= next) := by
  intro b
  have hb := h b
  rw [lastState_bind]
  cases hrun : work b with
  | ok a b' =>
    rw [hrun] at hb
    exact hb.trans (hnext a b')
  | error e b' =>
    rw [hrun] at hb
    exact hb

theorem Amending.look {next : Body → Build β} (h : ∀ b, Amending (next b)) : Amending (get >>= next) :=
  fun b => h b b

namespace Straight

theorem pure (a : α) : Straight 0 0 (pure a : Build α) where
  amending b := .refl b
  exchanges h := by
    cases h
    exact .of_eq rfl

theorem fail (fault : CodeFault) : Straight n k (Body.fail fault : Build α) where
  amending b := .refl b
  exchanges h := by cases h

theorem fail_bind (fault : CodeFault) : Straight n k (Body.fail fault >>= next) where
  amending b := .refl b
  exchanges h := by cases h

theorem change {f : Body → Body} (hamends : ∀ b : Body, b.Amends (f b)) (hexchanges : ∀ b, Exchanges n k b (f b)) :
    Straight n k (modify f : Build Unit) where
  amending := hamends
  exchanges h := by
    cases h
    exact hexchanges _

theorem bind (h : Straight n k work) (hnext : ∀ a, Straight n' k' (next a)) :
    Straight (n + (n' - k)) (k - n' + k') (work >>= next) where
  amending := h.amending.bind fun a => (hnext a).amending
  exchanges hrun := by
    obtain ⟨a, m, hfirst, hrest⟩ := bind_eq_ok.1 hrun
    exact (h.exchanges hfirst).trans ((hnext a).exchanges hrest)

theorem after (h : Straight 0 0 work) (hnext : ∀ a, Straight n k (next a)) : Straight n k (work >>= next) := by
  simpa using h.bind hnext

theorem look {next : Body → Build β} (h : ∀ b, Straight n k (next b)) : Straight n k (get >>= next) where
  amending := .look fun b => (h b).amending
  exchanges hrun := (h _).exchanges hrun

end Straight

end Laws

/-! ## Parts of calls -/

theorem request_straight {α : Type} (r : Interning α) : Straight 0 0 (request r) where
  amending b := by
    unfold request
    simp only
    cases r b.pool <;> exact .of_same rfl rfl rfl rfl
  exchanges {b a b'} h := by
    unfold request at h
    simp only at h
    cases hr : r b.pool with
    | ok a pool =>
      rw [hr] at h
      cases h
      exact .of_eq rfl
    | error e pool =>
      rw [hr] at h
      cases h

theorem emit_straight (i : Instruction) : Straight 0 0 (emit i) :=
  .change (fun b => ⟨rfl, rfl, [i], by simp, by simp; rfl⟩) fun _ => .of_eq rfl

theorem push_straight (type : VerificationType) : Straight 0 1 (push type) :=
  .change (fun _ => .of_same rfl rfl rfl rfl) fun b => ⟨b.stack, #[], #[type], by simp, rfl, by simp, rfl⟩

theorem pop_straight : Straight 1 0 pop where
  amending b := by
    unfold pop
    cases b.stack.back? <;> exact .of_same rfl rfl rfl rfl
  exchanges {b type b'} h := by
    obtain ⟨rest, hrest, rfl⟩ := pop_yields.of_ok h
    exact ⟨rest, #[type], #[], by simp [hrest], rfl, by simp, rfl⟩

theorem popMany_straight (n : Nat) : Straight n 0 (popMany n) := by
  induction n with
  | zero => exact .pure ()
  | succ n ih =>
    have h := pop_straight.bind fun _ => ih
    rwa [Nat.sub_zero, Nat.add_comm, Nat.zero_sub] at h

theorem touch_straight (slot : UInt16) : Straight 0 0 (touch slot) :=
  .change (fun _ => .of_same rfl rfl rfl rfl) fun _ => .of_eq rfl

theorem setLocal_straight (slot : UInt16) (type : VerificationType) : Straight 0 0 (setLocal slot type) :=
  .change (fun _ => .of_same rfl rfl rfl rfl) fun _ => .of_eq rfl

theorem classType_straight (name : String) : Straight 0 0 (classType name) :=
  (request_straight _).after fun _ => .pure _

theorem typeOf_straight (type : JavaType) : Straight 0 0 (typeOf type) := by
  unfold typeOf
  split
  · exact .pure _
  · split
    · exact classType_straight _
    · exact .fail _

theorem emitLdc_straight (index : UInt16) : Straight 0 0 (emitLdc index) := emit_straight _

theorem fieldType_straight (descriptor : String) : Straight 0 0 (fieldType descriptor) := by
  unfold fieldType
  split
  · exact .pure _
  · exact .fail _

theorem pushResult_void : Straight 0 0 (pushResult .void) := .pure _

theorem pushResult_straight {type : JavaType} (h : type ≠ .void) : Straight 0 1 (pushResult type) := by
  unfold pushResult
  rw [if_pos h]
  exact (typeOf_straight type).after fun _ => push_straight _

/-! ## Calls -/

theorem pushInt_straight (value : Int32) : Straight 0 1 (pushInt value) := by
  have hplain : ∀ i : Instruction, Straight 0 1 (do emit i; push .integer) :=
    fun i => (emit_straight i).after fun _ => push_straight _
  unfold pushInt
  simp only
  split
  · exact hplain _
  · split
    · exact hplain _
    · split
      · exact hplain _
      · exact (request_straight _).after fun _ => hplain _

theorem pushText_straight (text : String) : Straight 0 1 (pushText text) :=
  (request_straight _).after fun _ => (emitLdc_straight _).after fun _ =>
    (classType_straight _).after fun _ => push_straight _

theorem loadedType_straight (slot : UInt16) (kind : ValueKind) : Straight 0 0 (loadedType slot kind) := by
  cases kind with
  | int => exact .pure _
  | reference =>
    refine .look fun b => ?_
    simp only
    split
    · exact .pure _
    · exact classType_straight _

theorem load_straight (slot : UInt16) (kind : ValueKind) : Straight 0 1 (load slot kind) :=
  (emit_straight _).after fun _ => (loadedType_straight slot kind).after fun _ =>
    (push_straight _).bind fun _ => touch_straight slot

theorem store_straight (slot : UInt16) (kind : ValueKind) : Straight 1 0 (store slot kind) :=
  pop_straight.bind fun type => (emit_straight _).after fun _ => (setLocal_straight slot type).after fun _ =>
    touch_straight slot

theorem arithmetic_straight (op : Arithmetic) : Straight 2 1 (arithmetic op) :=
  (popMany_straight 2).bind fun _ => (emit_straight _).after fun _ => push_straight _

theorem getStatic_straight (m : MemberRef) : Straight 0 1 (getStatic m) :=
  (fieldType_straight _).after fun type => (typeOf_straight type).after fun _ => (request_straight _).after fun _ =>
    (emit_straight _).after fun _ => push_straight _

theorem putStatic_straight (m : MemberRef) : Straight 1 0 (putStatic m) :=
  (fieldType_straight _).after fun _ => (request_straight _).after fun _ => pop_straight.bind fun _ => emit_straight _

theorem new_straight (className : String) : Straight 0 1 (new className) := by
  refine .look fun b => ?_
  simp only
  split
  · exact .fail_bind _
  · exact (request_straight _).after fun _ => (emit_straight _).after fun _ => push_straight _

theorem dup_straight : Straight 0 1 dup := by
  refine .look fun b => ?_
  split
  · exact (emit_straight _).after fun _ => push_straight _
  · exact .fail _

/-! ### Methods -/

theorem pushResult_amending (type : JavaType) : Amending (pushResult type) := by
  by_cases h : type = .void
  · rw [h]
    exact pushResult_void.amending
  · exact (pushResult_straight h).amending

theorem popArguments_amending (descriptor : String) : Amending (popArguments descriptor) := by
  unfold popArguments
  split
  · exact ((popMany_straight _).bind fun _ => .pure _).amending
  · exact (Straight.fail (n := 0) (k := 0) _).amending

theorem invoke_straight (m : MemberRef) (make : UInt16 → Instruction) {result : JavaType} {k : Nat}
    (h : Straight 0 k (pushResult result)) :
    Straight 0 k (do emit (make (← methodIndex m)); pushResult result) :=
  (request_straight _).after fun _ => (emit_straight _).after fun _ => h

theorem invoke_amending (m : MemberRef) (make : UInt16 → Instruction) (result : JavaType) :
    Amending (do emit (make (← methodIndex m)); pushResult result) :=
  (request_straight _).amending.bind fun _ => (emit_straight _).amending.bind fun _ => pushResult_amending result

theorem popArguments_bind_eq {β : Type} {m : MemberRef} {count : Nat} {result : JavaType} (h : m.Takes count result)
    (next : JavaType → Build β) : (popArguments m.descriptor >>= next) = popMany count >>= fun _ => next result := by
  obtain ⟨params, hm, rfl⟩ := h
  simp [popArguments, hm]

theorem invokeVirtual_straight {m : MemberRef} {count k : Nat} {result : JavaType} (htakes : m.Takes count result)
    (h : Straight 0 k (pushResult result)) : Straight (count + 1) k (invokeVirtual m) := by
  unfold invokeVirtual
  rw [popArguments_bind_eq htakes]
  simpa using (popMany_straight count).bind fun _ => pop_straight.bind fun _ => invoke_straight m .invokeVirtual h

theorem invokeStatic_straight {m : MemberRef} {count k : Nat} {result : JavaType} (htakes : m.Takes count result)
    (h : Straight 0 k (pushResult result)) : Straight count k (invokeStatic m) := by
  unfold invokeStatic
  rw [popArguments_bind_eq htakes]
  simpa using (popMany_straight count).bind fun _ => invoke_straight m .invokeStatic h

theorem invokeVirtual_amending (m : MemberRef) : Amending (invokeVirtual m) :=
  (popArguments_amending _).bind fun result => pop_straight.amending.bind fun _ =>
    invoke_amending m .invokeVirtual result

theorem invokeStatic_amending (m : MemberRef) : Amending (invokeStatic m) :=
  (popArguments_amending _).bind fun result => invoke_amending m .invokeStatic result

theorem construct_amending (receiver initialized : VerificationType) : Amending (construct receiver initialized) :=
  fun _ => .of_same rfl rfl rfl rfl

theorem initialize_amending (m : MemberRef) (receiver : VerificationType) :
    Amending (do
      if m.name = "<init>" then
        match receiver with
        | .uninitializedThis => construct receiver (.object (← get).thisClass)
        | .uninitialized _ => construct receiver (← classType m.owner)
        | _ => pure ()) := by
  by_cases hname : m.name = "<init>"
  · simp only [if_pos hname]
    cases receiver with
    | uninitializedThis => exact .look fun _ => construct_amending _ _
    | uninitialized address => exact (classType_straight _).amending.bind fun _ => construct_amending _ _
    | _ => exact (Straight.pure _).amending
  · simp only [if_neg hname]
    exact (Straight.pure _).amending

theorem invokeSpecial_amending (m : MemberRef) : Amending (invokeSpecial m) := by
  rw [invokeSpecial_eq]
  refine ((popArguments_amending _).bind fun _ => pop_straight.amending.bind fun _ =>
    (Straight.pure _).amending).bind fun r => ?_
  exact (request_straight _).amending.bind fun _ => (emit_straight _).amending.bind fun _ =>
    (initialize_amending m r.2).bind fun _ => pushResult_amending r.1

/-! ### Labels -/

variable {b b' : Body} {label : Nat} {e : Fault}

theorem recordEdge_eq_error (h : recordEdge label b = .error e b') : b' = b := by
  obtain h | ⟨_, _, hget, h⟩ := bind_eq_error.1 h
  · cases h
  · cases hget
    cases hl : b.labels[label]? with
    | none =>
      simp only [hl] at h
      cases h
      rfl
    | some l =>
      cases hs : l.stack with
      | none =>
        simp only [hl, hs] at h
        cases h
      | some expected =>
        simp only [hl, hs] at h
        split at h
        · cases h
          rfl
        · cases h

theorem branch_eq_error {condition : Condition} (h : branch condition label b = .error e b') : b.Amends b' := by
  have hpops := (popMany_straight 2).amending b
  obtain h | ⟨_, m, hm, h⟩ := bind_eq_error.1 h
  · rwa [h] at hpops
  · rw [hm] at hpops
    obtain h | ⟨_, _, -, h⟩ := bind_eq_error.1 h
    · rw [recordEdge_eq_error h]
      exact hpops
    · cases h

theorem jump_eq_error (h : jump label b = .error e b') : b' = b := by
  obtain h | ⟨_, _, -, h⟩ := bind_eq_error.1 h
  · exact recordEdge_eq_error h
  · cases h

theorem bind_label_eq_error (h : bind label b = .error e b') : b' = b := by
  obtain h | ⟨_, _, hget, h⟩ := bind_eq_error.1 h
  · cases h
  · cases hget
    cases hl : b.labels[label]? with
    | none =>
      simp only [hl] at h
      cases h
      rfl
    | some l =>
      simp only [hl] at h
      split at h
      · cases h
        rfl
      · obtain h | ⟨_, _, hget, h⟩ := bind_eq_error.1 h
        · cases h
        · cases hget
          split at h
          · obtain h | ⟨_, _, -, h⟩ := bind_eq_error.1 h
            · exact recordEdge_eq_error h
            · cases h
          · cases h

/-! ## One more call -/

/-- What one more call can do to the code and its labels, be it that it fails. -/
inductive Step (b b' : Body) : Prop
  | amends (h : b.Amends b')
  | newLabel (h : Call.newLabel.Effect b b')
  | branch {condition : Condition} {label : Nat} (h : (Call.branch condition label).Effect b b')
  | jump {label : Nat} (h : (Call.jump label).Effect b b')
  | bind {label : Nat} (h : (Call.bind label).Effect b b')

theorem branch_step (condition : Condition) (label : Nat) (b : Body) : b.Step (lastState (branch condition label b)) := by
  cases h : branch condition label b with
  | ok _ b' => exact .branch ((branch_behaves condition label).of_ok h)
  | error e b' => exact .amends (branch_eq_error h)

theorem jump_step (label : Nat) (b : Body) : b.Step (lastState (jump label b)) := by
  cases h : jump label b with
  | ok _ b' => exact .jump ((jump_behaves label).of_ok h)
  | error e b' =>
    rw [jump_eq_error h]
    exact .amends (.refl b)

theorem bind_step (label : Nat) (b : Body) : b.Step (lastState (bind label b)) := by
  cases h : bind label b with
  | ok _ b' => exact .bind ((bind_behaves label).of_ok h)
  | error e b' =>
    rw [bind_label_eq_error h]
    exact .amends (.refl b)

theorem Step.label_becomes {i : Nat} {l : Label} (h : b.Step b') (hl : b.labels[i]? = some l) :
    ∃ l', b'.labels[i]? = some l' ∧ l.Becomes l' := by
  cases h with
  | amends h => exact ⟨l, by rw [h.labels, hl], .refl l⟩
  | newLabel h => exact h.label_becomes hl
  | branch h => exact h.label_becomes hl
  | jump h => exact h.label_becomes hl
  | bind h => exact h.label_becomes hl

theorem Step.position? {i p : Nat} (h : b.Step b') (hp : b.position? i = some p) : b'.position? i = some p := by
  obtain ⟨l, hl, hposition⟩ := Option.bind_eq_some_iff.1 hp
  obtain ⟨l', hl', hbecomes⟩ := h.label_becomes hl
  exact Option.bind_eq_some_iff.2 ⟨l', hl', hbecomes.position p hposition⟩

end Body

theorem Call.amends {c : Call} (hnew : c ≠ .newLabel) (hlabel : c.label? = none) (b : Body) :
    b.Amends (lastState (c.perform b)) := by
  cases c with
  | newLabel => exact absurd rfl hnew
  | branch condition label => cases hlabel
  | jump label => cases hlabel
  | bind label => cases hlabel
  | pushInt value => exact (Body.pushInt_straight value).amending b
  | pushText text => exact (Body.pushText_straight text).amending b
  | load slot kind => exact (Body.load_straight slot kind).amending b
  | store slot kind => exact (Body.store_straight slot kind).amending b
  | arithmetic op => exact (Body.arithmetic_straight op).amending b
  | getStatic m => exact (Body.getStatic_straight m).amending b
  | putStatic m => exact (Body.putStatic_straight m).amending b
  | invokeVirtual m => exact Body.invokeVirtual_amending m b
  | invokeStatic m => exact Body.invokeStatic_amending m b
  | invokeSpecial m => exact Body.invokeSpecial_amending m b
  | new className => exact (Body.new_straight className).amending b
  | dup => exact Body.dup_straight.amending b

theorem Call.step (c : Call) (b : Body) : b.Step (lastState (c.perform b)) := by
  cases c with
  | newLabel => exact .newLabel rfl
  | branch condition label => exact Body.branch_step condition label b
  | jump label => exact Body.jump_step label b
  | bind label => exact Body.bind_step label b
  | _ => exact .amends (Call.amends (by simp) rfl b)

theorem Call.step_of_ok {c : Call} {b b' : Body} (h : c.perform b = .ok () b') : b.Step b' := by
  have hstep := c.step b
  rwa [h] at hstep

theorem Call.labels_size_of_ok {c : Call} {b b' : Body} (hnew : c ≠ .newLabel) (h : c.perform b = .ok () b') :
    b'.labels.size = b.labels.size := by
  have hlast : b' = lastState (c.perform b) := by rw [h, lastState]
  cases c with
  | newLabel => exact absurd rfl hnew
  | branch condition label => exact ((Body.branch_behaves condition label).of_ok h).labels_size
  | jump label => exact ((Body.jump_behaves label).of_ok h).labels_size
  | bind label => exact ((Body.bind_behaves label).of_ok h).labels_size
  | _ => rw [hlast, (Call.amends hnew rfl b).labels]

end KnightCode
