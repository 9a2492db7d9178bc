import KnightCode.Proofs.BranchResolution
import KnightCode.Proofs.Capacity

/-!
# The greatest depth of the operand stack

The depth of the operand stack is noted at every push, cut to sixteen bits, and nothing stops a stack from growing while
calls are made. But a value is pushed only after an instruction has been added, and the stack of a label is one that the
body has had. So no stack is deeper than the code is long, and in code that is not too long the depth that is noted is
the greatest one that there has been, also when calls fail halfway.
-/

namespace KnightCode

namespace Body

/-! ## What work leaves -/

/-- Wherever the work ends, this relation holds between the body before and after. -/
def Leads {α : Type} (rel : Body → Body → Prop) (work : Build α) : Prop := ∀ b : Body, rel b (lastState (work b))

theorem Leads.bind {α β : Type} {first second both : Body → Body → Prop} {work : Build α} {next : α → Build β}
    (h : Leads first work) (hnext : ∀ a, Leads second (next a)) (hfails : ∀ {b b'}, first b b' → both b b')
    (hgoes : ∀ {b m b'}, first b m → second m b' → both b b') : Leads both (work >>= next) := by
  intro b
  have hb := h b
  rw [lastState_bind]
  cases hrun : work b with
  | ok a m =>
    rw [hrun] at hb
    exact hgoes hb (hnext a m)
  | error e m =>
    rw [hrun] at hb
    exact hfails hb

/-- What a body is started with and its table of frames is made from. -/
def setting (b : Body) : Types × Bool := (b.entryLocals, b.wantsFrames)

/-- The operand stack is no deeper than before, and no depth has been noted. -/
structure Sinks (b b' : Body) : Prop where
  depth : b'.stack.size ≤ b.stack.size
  maxStack : b'.maxStack = b.maxStack
  maxLocals : b'.maxLocals = b.maxLocals
  setting : b'.setting = b.setting
  size : b.size ≤ b'.size

theorem Sinks.refl (b : Body) : b.Sinks b := ⟨Nat.le_refl _, rfl, rfl, rfl, Nat.le_refl _⟩

theorem Sinks.trans {a b c : Body} (hab : a.Sinks b) (hbc : b.Sinks c) : a.Sinks c :=
  ⟨Nat.le_trans hbc.depth hab.depth, hbc.maxStack.trans hab.maxStack, hbc.maxLocals.trans hab.maxLocals,
    hbc.setting.trans hab.setting, Nat.le_trans hab.size hbc.size⟩

/-- The operand stack is at most one value deeper than before, its depth has been noted, and so many bytes at least have
been added. -/
structure Rises (bytes : Nat) (b b' : Body) : Prop where
  depth : b'.stack.size ≤ b.stack.size + 1
  maxStack : b'.maxStack = max b.maxStack b'.stack.size.toUInt16
  maxLocals : b'.maxLocals = b.maxLocals
  setting : b'.setting = b.setting
  size : b.size + bytes ≤ b'.size

structure Adopts (b b' : Body) : Prop where
  stack : ∃ l ∈ b.labels, b'.stack = l.stack.getD #[]
  maxStack : b'.maxStack = b.maxStack
  maxLocals : b'.maxLocals = b.maxLocals
  setting : b'.setting = b.setting
  size : b.size ≤ b'.size

/-- What work that pushes one value at most, and that at its end, does to the depth. -/
def Lifts (bytes : Nat) (b b' : Body) : Prop := b.Sinks b' ∨ b.Rises bytes b'

theorem Lifts.after {bytes : Nat} {a b c : Body} (hab : a.Sinks b) (hbc : b.Lifts bytes c) : a.Lifts bytes c := by
  rcases hbc with hsinks | hrises
  · exact .inl (hab.trans hsinks)
  · refine .inr ⟨?_, ?_, hrises.maxLocals.trans hab.maxLocals, hrises.setting.trans hab.setting, ?_⟩
    · exact Nat.le_trans hrises.depth (Nat.succ_le_succ hab.depth)
    · rw [hrises.maxStack, hab.maxStack]
    · exact Nat.le_trans (Nat.add_le_add_right hab.size _) hrises.size

section Laws

variable {α β : Type} {work : Build α} {bytes : Nat}

theorem leads_look {rel : Body → Body → Prop} {next : Body → Build β} (h : ∀ b, Leads rel (next b)) :
    Leads rel (get >>= next) :=
  fun b => h b b

theorem sinks_pure (a : α) : Leads Sinks (pure a : Build α) := Sinks.refl

theorem sinks_fail (fault : CodeFault) : Leads Sinks (fail fault : Build α) := Sinks.refl

theorem sinks_bind {next : α → Build β} (h : Leads Sinks work) (hnext : ∀ a, Leads Sinks (next a)) :
    Leads Sinks (work >>= next) :=
  h.bind hnext id .trans

theorem lifts_of_sinks (h : Leads Sinks work) : Leads (Lifts bytes) work := fun b => .inl (h b)

theorem lifts_bind {next : α → Build β} (h : Leads Sinks work) (hnext : ∀ a, Leads (Lifts bytes) (next a)) :
    Leads (Lifts bytes) (work >>= next) :=
  h.bind hnext .inl .after

end Laws

/-! ## Parts of calls -/

theorem request_sinks {α : Type} (r : Interning α) : Leads Sinks (request r) := by
  intro b
  unfold request
  simp only
  cases r b.pool <;> exact ⟨Nat.le_refl _, rfl, rfl, rfl, Nat.le_refl _⟩

theorem append_sinks (item : Item) : Leads Sinks (append item) :=
  fun _ => ⟨Nat.le_refl _, rfl, rfl, rfl, Nat.le_add_right _ _⟩

theorem emit_sinks (i : Instruction) : Leads Sinks (emit i) := append_sinks _

theorem pop_sinks : Leads Sinks pop := by
  intro b
  unfold pop
  cases b.stack.back? with
  | none => exact .refl b
  | some type => exact ⟨by rw [lastState, Array.size_pop]; exact Nat.sub_le _ _, rfl, rfl, rfl, Nat.le_refl _⟩

theorem popMany_sinks (n : Nat) : Leads Sinks (popMany n) := by
  induction n with
  | zero => exact sinks_pure ()
  | succ n ih => exact sinks_bind pop_sinks fun _ => ih

theorem setLocal_sinks (slot : UInt16) (type : VerificationType) : Leads Sinks (setLocal slot type) :=
  fun _ => ⟨Nat.le_refl _, rfl, rfl, rfl, Nat.le_refl _⟩

theorem modifyLabel_sinks (label : Nat) (f : Label → Label) : Leads Sinks (modifyLabel label f) :=
  fun _ => ⟨Nat.le_refl _, rfl, rfl, rfl, Nat.le_refl _⟩

theorem classType_sinks (name : String) : Leads Sinks (classType name) :=
  sinks_bind (request_sinks _) fun _ => sinks_pure _

theorem typeOf_sinks (type : JavaType) : Leads Sinks (typeOf type) := by
  unfold typeOf
  split
  · exact sinks_pure _
  · split
    · exact classType_sinks _
    · exact sinks_fail _

theorem fieldType_sinks (descriptor : String) : Leads Sinks (fieldType descriptor) := by
  unfold fieldType
  split
  · exact sinks_pure _
  · exact sinks_fail _

theorem loadedType_sinks (slot : UInt16) (kind : ValueKind) : Leads Sinks (loadedType slot kind) := by
  cases kind with
  | int => exact sinks_pure _
  | reference =>
    refine leads_look fun b => ?_
    simp only
    split
    · exact sinks_pure _
    · exact classType_sinks _

theorem popArguments_sinks (descriptor : String) : Leads Sinks (popArguments descriptor) := by
  unfold popArguments
  split
  · exact sinks_bind (popMany_sinks _) fun _ => sinks_pure _
  · exact sinks_fail _

theorem construct_sinks (receiver initialized : VerificationType) : Leads Sinks (construct receiver initialized) :=
  fun _ => ⟨Nat.le_of_eq Array.size_map, rfl, rfl, rfl, Nat.le_refl _⟩

theorem initialize_sinks (m : MemberRef) (receiver : VerificationType) :
    Leads Sinks (do
      if m.name = "<init>" then
        match receiver with
        | .uninitializedThis => construct receiver (.object (← get).thisClass)
        | .uninitialized _ => construct receiver (← classType m.owner)
        | _ => pure ()) := by
  by_cases hname : m.name = "<init>"
  · simp only [if_pos hname]
    cases receiver with
    | uninitializedThis => exact leads_look fun _ => construct_sinks _ _
    | uninitialized address => exact sinks_bind (classType_sinks _) fun _ => construct_sinks _ _
    | _ => exact sinks_pure _
  · simp only [if_neg hname]
    exact sinks_pure _

theorem recordEdge_sinks (label : Nat) : Leads Sinks (recordEdge label) := by
  intro b
  cases h : recordEdge label b with
  | ok _ b' =>
    obtain ⟨l, -, -, rfl⟩ := (recordEdge_yields label).of_ok h
    exact ⟨Nat.le_refl _, rfl, rfl, rfl, Nat.le_refl _⟩
  | error e b' =>
    rw [recordEdge_eq_error h]
    exact .refl b

theorem push_lifts (type : VerificationType) : Leads (Lifts 0) (push type) := by
  intro b
  refine .inr ⟨Nat.le_of_eq (Array.size_push _), ?_, rfl, rfl, Nat.le_refl _⟩
  rw [push_run, lastState, pushed, Array.size_push]

theorem pushResult_lifts (type : JavaType) : Leads (Lifts 0) (pushResult type) := by
  unfold pushResult
  split
  · exact lifts_bind (typeOf_sinks type) fun _ => push_lifts _
  · exact lifts_of_sinks (sinks_pure _)

/-- An instruction takes a byte at least, which pays for the value that is pushed after it. -/
theorem emit_lifts {β : Type} (i : Instruction) {next : Build β} (h : Leads (Lifts 0) next) :
    Leads (Lifts 1) (emit i >>= fun _ => next) := by
  intro b
  have hlifts := h (b.added b.pool (.plain i) b.stack)
  have hsize := i.size_pos
  rcases hlifts with hsinks | hrises
  · exact .inl ((emit_sinks i b).trans hsinks)
  · refine .inr ⟨hrises.depth, hrises.maxStack, hrises.maxLocals, hrises.setting, ?_⟩
    exact Nat.le_trans (Nat.add_le_add_left hsize _) hrises.size

/-! ## Calls -/

theorem pushInt_lifts (value : Int32) : Leads (Lifts 1) (pushInt value) := by
  have hplain : ∀ i : Instruction, Leads (Lifts 1) (do emit i; push .integer) :=
    fun i => emit_lifts i (push_lifts _)
  unfold pushInt
  simp only
  split
  · exact hplain _
  · split
    · exact hplain _
    · split
      · exact hplain _
      · exact lifts_bind (request_sinks _) fun _ => hplain _

theorem pushText_lifts (text : String) : Leads (Lifts 1) (pushText text) :=
  lifts_bind (request_sinks _) fun _ => emit_lifts _ (lifts_bind (classType_sinks _) fun _ => push_lifts _)

theorem arithmetic_lifts (op : Arithmetic) : Leads (Lifts 1) (arithmetic op) :=
  lifts_bind (popMany_sinks 2) fun _ => emit_lifts _ (push_lifts _)

theorem getStatic_lifts (m : MemberRef) : Leads (Lifts 1) (getStatic m) :=
  lifts_bind (fieldType_sinks _) fun type => lifts_bind (typeOf_sinks type) fun _ =>
    lifts_bind (request_sinks _) fun _ => emit_lifts _ (push_lifts _)

theorem putStatic_sinks (m : MemberRef) : Leads Sinks (putStatic m) :=
  sinks_bind (fieldType_sinks _) fun _ => sinks_bind (request_sinks _) fun _ => sinks_bind pop_sinks fun _ =>
    emit_sinks _

theorem invoke_lifts (m : MemberRef) (make : UInt16 → Instruction) (result : JavaType) :
    Leads (Lifts 1) (do emit (make (← methodIndex m)); pushResult result) :=
  lifts_bind (request_sinks _) fun _ => emit_lifts _ (pushResult_lifts result)

theorem invokeVirtual_lifts (m : MemberRef) : Leads (Lifts 1) (invokeVirtual m) :=
  lifts_bind (popArguments_sinks _) fun result => lifts_bind pop_sinks fun _ => invoke_lifts m .invokeVirtual result

theorem invokeStatic_lifts (m : MemberRef) : Leads (Lifts 1) (invokeStatic m) :=
  lifts_bind (popArguments_sinks _) fun result => invoke_lifts m .invokeStatic result

theorem invokeSpecial_lifts (m : MemberRef) : Leads (Lifts 1) (invokeSpecial m) := by
  rw [invokeSpecial_eq]
  refine lifts_bind (sinks_bind (popArguments_sinks _) fun _ => sinks_bind pop_sinks fun _ => sinks_pure _) fun r => ?_
  exact lifts_bind (request_sinks _) fun _ => emit_lifts _
    (lifts_bind (initialize_sinks m r.2) fun _ => pushResult_lifts r.1)

theorem new_lifts (className : String) : Leads (Lifts 1) (new className) := by
  refine leads_look fun b => ?_
  simp only
  split
  · exact lifts_of_sinks Sinks.refl
  · exact lifts_bind (request_sinks _) fun _ => emit_lifts _ (push_lifts _)

theorem dup_lifts : Leads (Lifts 1) dup := by
  refine leads_look fun b => ?_
  split
  · exact emit_lifts _ (push_lifts _)
  · exact lifts_of_sinks (sinks_fail _)

theorem branch_sinks (condition : Condition) (label : Nat) : Leads Sinks (branch condition label) :=
  sinks_bind (popMany_sinks 2) fun _ => sinks_bind (recordEdge_sinks label) fun _ =>
    sinks_bind (modifyLabel_sinks _ _) fun _ => append_sinks _

theorem jump_sinks (label : Nat) : Leads Sinks (jump label) := by
  have hleave : Leads Sinks (modify fun b => { b with reachable := false, stack := #[] } : Build Unit) :=
    fun _ => ⟨Nat.zero_le _, rfl, rfl, rfl, Nat.le_refl _⟩
  exact sinks_bind (recordEdge_sinks label) fun _ => sinks_bind (modifyLabel_sinks _ _) fun _ =>
    sinks_bind (append_sinks _) fun _ => hleave

/-- What a call has done before it uses a variable. -/
inductive Moves (b b' : Body) : Prop
  | lifts (h : b.Lifts 1 b')
  | adopts (h : b.Adopts b')

theorem Moves.maxLocals {b b' : Body} (h : b.Moves b') : b'.maxLocals = b.maxLocals := by
  obtain (hsinks | hrises) | hadopts := h
  · exact hsinks.maxLocals
  · exact hrises.maxLocals
  · exact hadopts.maxLocals

theorem Moves.setting {b b' : Body} (h : b.Moves b') : b'.setting = b.setting := by
  obtain (hsinks | hrises) | hadopts := h
  · exact hsinks.setting
  · exact hrises.setting
  · exact hadopts.setting

theorem bind_moves (label : Nat) : Leads Moves (bind label) := by
  intro b
  cases h : bind label b with
  | error e b' =>
    rw [bind_label_eq_error h]
    exact .lifts (.inl (.refl b))
  | ok _ b' =>
    obtain ⟨l, hl, -, ⟨-, -, rfl⟩ | ⟨-, rfl⟩⟩ := (bind_behaves label).of_ok h
    · exact .lifts (.inl ⟨Nat.le_refl _, rfl, rfl, rfl, Nat.le_refl _⟩)
    · exact .adopts ⟨⟨l, Array.mem_of_getElem? hl, rfl⟩, rfl, rfl, rfl, Nat.le_refl _⟩

end Body

def Call.noted (c : Call) (m : Body) : Body :=
  match c.slot? with
  | some slot => m.touched slot
  | none => m

/-- The call gets to `m` and fails there, or it succeeds and has used its variable. -/
structure Call.GetsTo (c : Call) (b m : Body) : Prop where
  moves : b.Moves m
  ok : ∀ {b'}, c.perform b = .ok () b' → b' = c.noted m
  error : ∀ {e b'}, c.perform b = .error e b' → b' = m

namespace Call

open Body

theorem getsTo_lastState {c : Call} {b : Body} (hslot : c.slot? = none) (h : b.Moves (lastState (c.perform b))) :
    c.GetsTo b (lastState (c.perform b)) := by
  refine ⟨h, ?_, ?_⟩
  · intro b' hrun
    rw [hrun, noted, hslot]
    rfl
  · intro e b' hrun
    rw [hrun]
    rfl

theorem getsTo_touch {c : Call} {slot : UInt16} {work : Build Unit} (hslot : c.slot? = some slot)
    (hperform : c.perform = work >>= fun _ => touch slot) (h : Leads (Lifts 1) work) (b : Body) :
    c.GetsTo b (lastState (work b)) := by
  refine ⟨.lifts (h b), ?_, ?_⟩
  · intro b' hrun
    rw [hperform] at hrun
    obtain ⟨_, m, hm, htouch⟩ := bind_eq_ok.1 hrun
    cases htouch
    rw [hm, noted, hslot]
    rfl
  · intro e b' hrun
    rw [hperform] at hrun
    obtain hm | ⟨_, m, -, htouch⟩ := bind_eq_error.1 hrun
    · rw [hm]
      rfl
    · cases htouch

theorem getsTo (c : Call) (b : Body) : ∃ m, c.GetsTo b m := by
  have hlifts : ∀ {c : Call}, c.slot? = none → Leads (Lifts 1) c.perform → ∃ m, c.GetsTo b m :=
    fun hslot h => ⟨_, getsTo_lastState hslot (.lifts (h b))⟩
  -- Loading and storing note their slot when all else is done, so their types move in a part of the work.
  cases c with
  | load slot kind =>
    have hperform : (load slot kind).perform =
        (do emit (.load kind (.ofIndex slot)); push (← loadedType slot kind)) >>= fun _ => touch slot := by
      simp [perform, Body.load]
    have htyped := lifts_bind (loadedType_sinks slot kind) push_lifts
    exact ⟨_, getsTo_touch rfl hperform (emit_lifts _ htyped) b⟩
  | store slot kind =>
    have hperform : (store slot kind).perform =
        (do let type ← pop; emit (.store kind (.ofIndex slot)); setLocal slot type) >>= fun _ => touch slot := by
      simp [perform, Body.store]
    have hsinks := sinks_bind pop_sinks fun type => sinks_bind (emit_sinks (.store kind (.ofIndex slot))) fun _ =>
      setLocal_sinks slot type
    exact ⟨_, getsTo_touch rfl hperform (lifts_of_sinks hsinks) b⟩
  | bind label => exact ⟨_, getsTo_lastState rfl (bind_moves label b)⟩
  | newLabel => exact hlifts rfl (lifts_of_sinks fun _ => ⟨Nat.le_refl _, rfl, rfl, rfl, Nat.le_refl _⟩)
  | branch condition label => exact hlifts rfl (lifts_of_sinks (branch_sinks condition label))
  | jump label => exact hlifts rfl (lifts_of_sinks (jump_sinks label))
  | pushInt value => exact hlifts rfl (pushInt_lifts value)
  | pushText text => exact hlifts rfl (pushText_lifts text)
  | arithmetic op => exact hlifts rfl (arithmetic_lifts op)
  | getStatic m => exact hlifts rfl (getStatic_lifts m)
  | putStatic m => exact hlifts rfl (lifts_of_sinks (putStatic_sinks m))
  | invokeVirtual m => exact hlifts rfl (invokeVirtual_lifts m)
  | invokeStatic m => exact hlifts rfl (invokeStatic_lifts m)
  | invokeSpecial m => exact hlifts rfl (invokeSpecial_lifts m)
  | new className => exact hlifts rfl (new_lifts className)
  | dup => exact hlifts rfl dup_lifts

end Call

/-! ## Runs -/

namespace Body

variable {b b' : Body}

theorem Step.label_stack (h : b.Step b') {l : Label} (hl : l ∈ b'.labels) {S : Types} (hS : l.stack = some S) :
    (∃ k ∈ b.labels, k.stack = some S) ∨ S.size ≤ b.stack.size := by
  have hmodify : ∀ {i : Nat} {f : Label → Label}, b'.labels = b.labels.modify i f →
      (∀ k ∈ b.labels, (f k).stack = some S → k.stack = some S ∨ S.size ≤ b.stack.size) →
      (∃ k ∈ b.labels, k.stack = some S) ∨ S.size ≤ b.stack.size := by
    intro i f hlabels hf
    obtain ⟨j, hj⟩ := Array.mem_iff_getElem?.1 hl
    rw [hlabels] at hj
    obtain ⟨-, k, hk, rfl⟩ | ⟨-, hj⟩ := getElem?_modify_cases hj
    · have hmem := Array.mem_of_getElem? hk
      exact (hf k hmem hS).imp_left fun h => ⟨k, hmem, h⟩
    · exact .inl ⟨l, Array.mem_of_getElem? hj, hS⟩
  cases h with
  | amends h => exact .inl ⟨l, h.labels ▸ hl, hS⟩
  | newLabel h =>
    obtain rfl := h
    rcases Array.mem_push.1 hl with hl | rfl
    · exact .inl ⟨l, hl, hS⟩
    · cases hS
  | branch h =>
    obtain ⟨T, popped, k, -, hT, -, -, rfl⟩ := h
    refine hmodify (f := fun l => { l.join T b.locals with referenced := true }) rfl fun k _ hk => .inr ?_
    cases hk
    rw [hT, Array.size_append]
    exact Nat.le_add_right _ _
  | jump h =>
    obtain ⟨k, -, -, rfl⟩ := h
    refine hmodify (f := fun l => { l.join b.stack b.locals with referenced := true }) rfl fun k _ hk => .inr ?_
    cases hk
    exact Nat.le_refl _
  | bind h =>
    obtain ⟨k, -, -, ⟨-, -, rfl⟩ | ⟨-, rfl⟩⟩ := h
    · refine hmodify (f := fun l => { l.join b.stack b.locals with position := some b.items.size }) rfl
        fun k _ hk => .inr ?_
      cases hk
      exact Nat.le_refl _
    · exact hmodify (f := fun l => { l with position := some b.items.size }) rfl fun k _ hk => .inl hk

/-- The operand stack has been `deepest` deep and no deeper. -/
structure Gauged (b : Body) (deepest : Nat) : Prop where
  stack : b.stack.size ≤ deepest
  labels : ∀ l ∈ b.labels, ∀ S, l.stack = some S → S.size ≤ deepest
  size : deepest ≤ b.size
  maxStack : b.size ≤ 65535 → b.maxStack.toNat = deepest

theorem gauged_start (pool : ConstantPool) (thisClass : UInt16) (entryLocals : List VerificationType)
    (wantsFrames : Bool) : (Body.start pool thisClass entryLocals wantsFrames).Gauged 0 where
  stack := Nat.le_refl _
  labels := by simp [Body.start]
  size := Nat.le_refl _
  maxStack _ := rfl

variable {deepest : Nat}

theorem Gauged.of_moves (h : b.Gauged deepest) (hmoves : b.Moves b') :
    max deepest b'.stack.size ≤ b'.size ∧ (b'.size ≤ 65535 → b'.maxStack.toNat = max deepest b'.stack.size) := by
  have hstack := h.stack
  have hsize := h.size
  have hkept : b'.stack.size ≤ deepest → b'.maxStack = b.maxStack → b.size ≤ b'.size →
      max deepest b'.stack.size ≤ b'.size ∧ (b'.size ≤ 65535 → b'.maxStack.toNat = max deepest b'.stack.size) := by
    intro hdepth hmax hle
    rw [Nat.max_eq_left hdepth, hmax]
    exact ⟨Nat.le_trans hsize hle, fun hshort => h.maxStack (Nat.le_trans hle hshort)⟩
  obtain (hsinks | hrises) | hadopts := hmoves
  · exact hkept (Nat.le_trans hsinks.depth hstack) hsinks.maxStack hsinks.size
  · have hdepth := hrises.depth
    have hpaid := hrises.size
    refine ⟨by omega, fun hshort => ?_⟩
    -- The depth fits a word, since the code does.
    have hword : b'.stack.size.toUInt16.toNat = b'.stack.size := by
      rw [Nat.toUInt16_eq, UInt16.toNat_ofNat', Nat.mod_eq_of_lt (by omega)]
    rw [hrises.maxStack, toNat_max, hword, h.maxStack (by omega)]
  · obtain ⟨l, hl, heq⟩ := hadopts.stack
    refine hkept ?_ hadopts.maxStack hadopts.size
    rw [heq]
    cases hS : l.stack with
    | none => exact Nat.zero_le _
    | some S => exact h.labels l hl S hS

theorem Gauged.call (h : b.Gauged deepest) (c : Call) :
    (lastState (c.perform b)).Gauged (max deepest (lastState (c.perform b)).stack.size) := by
  have hlabels : ∀ l ∈ (lastState (c.perform b)).labels, ∀ S, l.stack = some S → S.size ≤ deepest := by
    intro l hl S hS
    obtain ⟨k, hk, hS'⟩ | hle := (c.step b).label_stack hl hS
    · exact h.labels k hk S hS'
    · exact Nat.le_trans hle h.stack
  obtain ⟨m, hm⟩ := c.getsTo b
  obtain ⟨hsize, hmax⟩ := h.of_moves hm.moves
  have hsame : (lastState (c.perform b)).stack = m.stack ∧ (lastState (c.perform b)).size = m.size ∧
      (lastState (c.perform b)).maxStack = m.maxStack := by
    cases hrun : c.perform b with
    | ok _ b' =>
      rw [lastState, hm.ok hrun, Call.noted]
      split <;> exact ⟨rfl, rfl, rfl⟩
    | error e b' =>
      rw [lastState, hm.error hrun]
      exact ⟨rfl, rfl, rfl⟩
  obtain ⟨hstack', hsize', hmax'⟩ := hsame
  refine ⟨Nat.le_max_right _ _, ?_, ?_, ?_⟩
  · intro l hl S hS
    exact Nat.le_trans (hlabels l hl S hS) (Nat.le_max_left _ _)
  · rw [hstack', hsize']
    exact hsize
  · rw [hstack', hsize', hmax']
    exact hmax

/-- The depth of the operand stack after each of the calls, be it that some of them fail. Within a call the stack is
never deeper than before or after it: values are taken off first, and one may be pushed at the end. -/
def depths (b : Body) : List Call → List Nat
  | [] => []
  | c :: calls => (lastState (c.perform b)).stack.size :: (lastState (c.perform b)).depths calls

theorem Gauged.attempt (h : b.Gauged deepest) (calls : List Call) :
    (b.attempt calls).Gauged ((b.depths calls).foldl max deepest) := by
  induction calls generalizing b deepest with
  | nil => exact h
  | cons c calls ih => exact ih (h.call c)

/-! ## Local variables -/

theorem maxLocals_of_ok {c : Call} (hrun : c.perform b = .ok () b') :
    b'.maxLocals = match c.slot? with
      | some slot => max b.maxLocals (slot + 1)
      | none => b.maxLocals := by
  obtain ⟨m, hm⟩ := c.getsTo b
  rw [hm.ok hrun, Call.noted, ← hm.moves.maxLocals]
  split <;> rfl

/-- The number of local variables: those at the start, and those up to the last one that a call uses. -/
def localsUsed (entry : Nat) (calls : List Call) : Nat :=
  (calls.filterMap Call.slot?).foldl (fun count slot => max count (slot.toNat + 1)) entry

theorem maxLocals_of_performAll {calls : List Call} (hrun : Call.performAll calls b = .ok () b')
    (hslots : ∀ c ∈ calls, ∀ slot, c.slot? = some slot → slot.toNat < 65535) :
    b'.maxLocals.toNat = localsUsed b.maxLocals.toNat calls := by
  induction calls generalizing b with
  | nil =>
    cases hrun
    rfl
  | cons c calls ih =>
    obtain ⟨m, hc, hrest⟩ := performAll_cons_eq_ok.1 hrun
    obtain ⟨hslot, hothers⟩ := List.forall_mem_cons.1 hslots
    rw [ih hrest hothers, maxLocals_of_ok hc, localsUsed, localsUsed]
    cases hc : c.slot? with
    | none => rw [List.filterMap_cons_none hc]
    | some slot =>
      have hroom := hslot slot hc
      have hnext : (slot + 1).toNat = slot.toNat + 1 := by
        rw [UInt16.toNat_add, UInt16.toNat_one, Nat.mod_eq_of_lt (by omega)]
      rw [List.filterMap_cons_some hc, List.foldl_cons, toNat_max, hnext]

theorem setting_of_performAll {calls : List Call} (hrun : Call.performAll calls b = .ok () b') :
    b'.setting = b.setting := by
  induction calls generalizing b with
  | nil =>
    cases hrun
    rfl
  | cons c calls ih =>
    obtain ⟨m, hc, hrest⟩ := performAll_cons_eq_ok.1 hrun
    obtain ⟨k, hk⟩ := c.getsTo b
    have hnoted : (c.noted k).setting = k.setting := by
      rw [Call.noted]
      split <;> rfl
    rw [ih hrest, hk.ok hc, hnoted, hk.moves.setting]

/-- Whatever calls have been made on a body, some of which may have failed: if it can be finished, the stored maximum is
the greatest depth that the operand stack has had. If all calls have succeeded, the stored number of local variables is
that of the variables used. -/
theorem stored_maxima_exact (pool : ConstantPool) (thisClass : UInt16) (entryLocals : List VerificationType)
    (wantsFrames : Bool) (calls : List Call) {code : MethodCode}
    (hfinish : ((Body.start pool thisClass entryLocals wantsFrames).attempt calls).finish = .ok code) :
    code.maxStack.toNat = ((Body.start pool thisClass entryLocals wantsFrames).depths calls).foldl max 0 ∧
      (entryLocals.length ≤ 65535 → (∀ c ∈ calls, ∀ slot, c.slot? = some slot → slot.toNat < 65535) →
        ∀ b, Call.performAll calls (Body.start pool thisClass entryLocals wantsFrames) = .ok () b →
          code.maxLocals.toNat = localsUsed entryLocals.length calls) := by
  have hreached := (Reached.start pool thisClass entryLocals wantsFrames).attempt calls
  have hfinished := finish_eq_ok hreached.coherent.size hfinish
  have hgauged := (gauged_start pool thisClass entryLocals wantsFrames).attempt calls
  constructor
  · have hshort := hfinished.size_le
    have hsize : ((Body.start pool thisClass entryLocals wantsFrames).attempt calls).size ≤ 65535 := by
      unfold finalSize at hshort
      split at hshort <;> omega
    rw [hfinished.maxStack]
    exact hgauged.maxStack hsize
  · intro hentry hslots b hrun
    have hstart : (Body.start pool thisClass entryLocals wantsFrames).maxLocals.toNat = entryLocals.length := by
      rw [Body.start, Nat.toUInt16_eq, UInt16.toNat_ofNat', Nat.mod_eq_of_lt (by omega)]
    rw [hfinished.maxLocals, attempt_of_performAll hrun, maxLocals_of_performAll hrun hslots, hstart]

def waiting : List Call := [.newLabel, .pushInt 1, .pushInt 2, .pushInt 3, .jump 0]

def resuming : List Call := [.bind 0, .arithmetic .add, .store 4 .int]

def waited : MethodCode :=
  ⟨[.iconst ⟨2, by decide⟩, .iconst ⟨3, by decide⟩, .iconst ⟨4, by decide⟩, .goto 3, .arithmetic .add,
    .store .int (.byte 4), .returnVoid], 3, 5, none⟩

/-- In the first run, a call fails in between, where there are no values. -/
theorem stored_maxima_exact_waiting :
    (((Body.start .empty 0 [.integer] false).attempt (waiting ++ .arithmetic .add :: resuming)).finish = .ok waited ∧
        waited.maxStack.toNat = [0, 1, 2, 3, 0, 0, 3, 2, 1].foldl max 0) ∧
      ((Body.start .empty 0 [.integer] false).attempt (waiting ++ resuming)).finish = .ok waited ∧
        (∃ b, Call.performAll (waiting ++ resuming) (Body.start .empty 0 [.integer] false) = .ok () b) ∧
        waited.maxLocals.toNat = localsUsed 1 (waiting ++ resuming) := by
  have hstumbles : ((Body.start .empty 0 [.integer] false).attempt (waiting ++ .arithmetic .add :: resuming)).finish =
      .ok waited := eq_ok_of_toOption (by decide +kernel)
  have hdepths : (Body.start .empty 0 [.integer] false).depths (waiting ++ .arithmetic .add :: resuming) =
      [0, 1, 2, 3, 0, 0, 3, 2, 1] := by decide +kernel
  have hruns : ((Body.start .empty 0 [.integer] false).attempt (waiting ++ resuming)).finish = .ok waited :=
    eq_ok_of_toOption (by decide +kernel)
  have hslots : ∀ c ∈ waiting ++ resuming, ∀ slot, c.slot? = some slot → slot.toNat < 65535 := by
    simp [waiting, resuming, Call.slot?]
  obtain ⟨b, hb⟩ : ∃ b, Call.performAll (waiting ++ resuming) (Body.start .empty 0 [.integer] false) = .ok () b :=
    exists_ok_of_run' (by decide +kernel)
  have hdeepest := (stored_maxima_exact .empty 0 [.integer] false _ hstumbles).1
  rw [hdepths] at hdeepest
  exact ⟨⟨hstumbles, hdeepest⟩, hruns, ⟨b, hb⟩,
    (stored_maxima_exact .empty 0 [.integer] false _ hruns).2 (by decide) hslots b hb⟩

end Body

end KnightCode
