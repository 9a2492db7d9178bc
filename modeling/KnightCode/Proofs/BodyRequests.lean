import KnightCode.Proofs.Calls
import KnightCode.Proofs.PoolInclusion

/-!
# What calls ask the constant pool for

A call reads and changes its body, and asks the pool for a few constants that the call alone determines. So it does the
same whether frames are wanted or not, and the pool cannot make it fail if a larger pool has all of these constants.
-/

namespace KnightCode

open ConstantPool (Request)

def Body.framed (b : Body) (wanted : Bool) : Body := { b with wantsFrames := wanted }

/-- The work asks for nothing else than what is allowed, and does not see whether frames are wanted. -/
inductive Uses (allowed : Request → Prop) : {α : Type} → Build α → Prop
  | pure {α : Type} (a : α) : Uses allowed (pure a : Build α)
  | fail {α : Type} {fault : Fault} (h : ¬fault.IsPool) : Uses allowed (throw fault : Build α)
  | change {f : Body → Body} (pool : ∀ b, (f b).pool = b.pool)
      (frames : ∀ b wanted, f (b.framed wanted) = (f b).framed wanted) : Uses allowed (modify f : Build Unit)
  | pop : Uses allowed Body.pop
  | look {α : Type} {next : Body → Build α} (same : ∀ b wanted, next (b.framed wanted) = next b)
      (each : ∀ b, Uses allowed (next b)) : Uses allowed (get >>= next)
  | ask {r : Request} (h : allowed r) : Uses allowed (Body.request r.ask)
  | bind {α β : Type} {work : Build α} {next : α → Build β} (first : Uses allowed work)
      (rest : ∀ a, Uses allowed (next a)) : Uses allowed (work >>= next)

namespace Uses

variable {allowed other : Request → Prop} {α β : Type} {work : Build α}

theorem fail_bind {fault : Fault} (h : ¬fault.IsPool) (next : α → Build β) :
    Uses allowed ((throw fault : Build α) >>= next) :=
  have heq : ((throw fault : Build α) >>= next) = throw fault := rfl
  heq ▸ .fail h

theorem mono (h : Uses allowed work) (himp : ∀ r, allowed r → other r) : Uses other work := by
  induction h with
  | pure a => exact .pure a
  | fail h => exact .fail h
  | change pool frames => exact .change pool frames
  | pop => exact .pop
  | look same _ ih => exact .look same ih
  | ask h => exact .ask (himp _ h)
  | bind _ _ ih ih' => exact .bind ih ih'

theorem commutes (h : Uses allowed work) (wanted : Bool) : Commutes (Body.framed · wanted) work := by
  induction h with
  | pure a => exact fun _ => rfl
  | fail h => exact fun _ => rfl
  | change _ frames => exact .of_modify fun b => frames b wanted
  | pop =>
    intro b
    unfold Body.pop Body.framed
    simp only
    cases b.stack.back? <;> rfl
  | look same _ ih => exact .of_get (fun b => same b wanted) ih
  | @ask r _ =>
    intro b
    unfold Body.request Body.framed
    simp only
    cases r.ask b.pool <;> rfl
  | bind _ _ ih ih' => exact ih.bind ih'

/-- A pool that is within one with all that is allowed does not make the work fail. -/
theorem within {large : ConstantPool} (wf' : large.WellFormed) (h : Uses allowed work)
    (hlarge : ∀ r, allowed r → ∃ j, r.Leads large j) {b : Body} (wf : b.pool.WellFormed) (hb : b.pool.Within large) :
    Yields work b (fun _ b' => b'.pool.WellFormed ∧ b'.pool.Within large) (¬·.IsPool) := by
  induction h generalizing b with
  | pure a => exact Yields.of_pure ⟨wf, hb⟩
  | fail h => exact Yields.of_throw h
  | change pool _ =>
    refine Yields.of_modify ?_
    rw [pool]
    exact ⟨wf, hb⟩
  | pop =>
    unfold Yields Body.pop
    cases b.stack.back? with
    | some t => exact ⟨wf, hb⟩
    | none => exact id
  | look _ _ ih => exact Yields.of_get (ih b wf hb)
  | @ask r hr =>
    obtain ⟨j, hj⟩ := hlarge r hr
    obtain ⟨i, later, hrun, ⟨-, hwf, -⟩, hwithin⟩ := Request.ask_finds wf' hj wf hb
    unfold Yields Body.request
    simp only [hrun]
    exact ⟨hwf, hwithin⟩
  | bind _ _ ih ih' =>
    refine (ih wf hb).bind ?_
    rintro a b' ⟨hwf, hb'⟩
    exact ih' a hwf hb'

end Uses

/-! ## Calls -/

/-- What is asked for so that a value of this type can be on the operand stack. -/
def JavaType.Asks (type : JavaType) (r : Request) : Prop := ∃ name, type.classConstant? = some name ∧ r = .classRef name

def Call.Asks : Call → Request → Prop
  | .pushInt value, r => r = .integer value
  | .pushText text, r => r = .string text ∨ r = .classRef Body.stringClass
  | .load .., r => r = .classRef Body.stringClass
  | .getStatic m, r => r = .fieldRef m ∨ ∃ type, JavaType.ofFieldDescriptor? m.descriptor = some type ∧ type.Asks r
  | .putStatic m, r => r = .fieldRef m
  | .invokeVirtual m, r | .invokeStatic m, r =>
    r = .methodRef m ∨ ∃ params result, JavaType.ofMethodDescriptor? m.descriptor = some (params, result) ∧
      result ≠ .void ∧ result.Asks r
  | .invokeSpecial m, r =>
    r = .methodRef m ∨ r = .classRef m.owner ∨ ∃ params result,
      JavaType.ofMethodDescriptor? m.descriptor = some (params, result) ∧ result ≠ .void ∧ result.Asks r
  | .new className, r => r = .classRef className
  | _, _ => False

namespace Body

variable {allowed : Request → Prop}

theorem emit_uses (i : Instruction) : Uses allowed (emit i) := .change (fun _ => rfl) fun _ _ => rfl

theorem append_uses (item : Item) : Uses allowed (append item) := .change (fun _ => rfl) fun _ _ => rfl

theorem push_uses (type : VerificationType) : Uses allowed (push type) := .change (fun _ => rfl) fun _ _ => rfl

theorem touch_uses (slot : UInt16) : Uses allowed (touch slot) := .change (fun _ => rfl) fun _ _ => rfl

theorem modifyLabel_uses (label : Nat) (f : Label → Label) : Uses allowed (modifyLabel label f) :=
  .change (fun _ => rfl) fun _ _ => rfl

theorem construct_uses (receiver initialized : VerificationType) : Uses allowed (construct receiver initialized) :=
  .change (fun _ => rfl) fun _ _ => rfl

theorem popMany_uses (n : Nat) : Uses allowed (popMany n) := by
  induction n with
  | zero => exact .pure ()
  | succ n ih => exact .bind .pop fun _ => ih

theorem classType_uses {name : String} (h : allowed (.classRef name)) : Uses allowed (classType name) :=
  .bind (.ask (r := .classRef name) h) fun _ => .pure _

theorem typeOf_uses {type : JavaType} (h : ∀ r, type.Asks r → allowed r) : Uses allowed (typeOf type) := by
  unfold typeOf
  split
  · exact .pure _
  · split
    · next name hname => exact classType_uses (h _ ⟨name, hname, rfl⟩)
    · exact .fail id

theorem pushResult_uses {type : JavaType} (h : ∀ r, type ≠ .void → type.Asks r → allowed r) :
    Uses allowed (pushResult type) := by
  unfold pushResult
  split
  · next hvoid => exact .bind (typeOf_uses fun r => h r hvoid) fun _ => push_uses _
  · exact .pure _

theorem recordEdge_uses (label : Nat) : Uses allowed (recordEdge label) := by
  refine .look (fun _ _ => rfl) fun b => ?_
  cases b.labels[label]? with
  | none => exact .fail_bind id _
  | some l =>
    simp only
    split
    · split
      · exact .fail_bind id _
      · exact modifyLabel_uses _ _
    · exact modifyLabel_uses _ _

theorem fieldType_bind {α : Type} {descriptor : String} {next : JavaType → Build α}
    (h : ∀ type, JavaType.ofFieldDescriptor? descriptor = some type → Uses allowed (next type)) :
    Uses allowed (fieldType descriptor >>= next) := by
  unfold fieldType
  cases htype : JavaType.ofFieldDescriptor? descriptor with
  | none => exact .fail_bind id _
  | some type => simpa using h type htype

theorem popArguments_bind {α : Type} {descriptor : String} {next : JavaType → Build α}
    (h : ∀ params result, JavaType.ofMethodDescriptor? descriptor = some (params, result) →
      Uses allowed (next result)) : Uses allowed (popArguments descriptor >>= next) := by
  unfold popArguments
  cases htype : JavaType.ofMethodDescriptor? descriptor with
  | none => exact .fail_bind id _
  | some type =>
    obtain ⟨params, result⟩ := type
    simp only [bind_assoc, pure_bind]
    exact .bind (popMany_uses _) fun _ => h params result htype

end Body

open Body in
theorem Call.uses (c : Call) : Uses c.Asks c.perform := by
  cases c with
  | pushInt value =>
    have hpush : ∀ i : Instruction, Uses (Call.pushInt value).Asks (do emit i; push .integer) :=
      fun i => .bind (emit_uses i) fun _ => push_uses _
    unfold Call.perform Body.pushInt
    simp only
    split
    · exact hpush _
    · split
      · exact hpush _
      · split
        · exact hpush _
        · exact .bind (.ask (r := .integer value) rfl) fun _ => hpush _
  | pushText text =>
    refine .bind (.ask (r := .string text) (.inl rfl)) fun i => .bind (emit_uses _) fun _ => ?_
    exact .bind (classType_uses (.inr rfl)) fun _ => push_uses _
  | load slot kind =>
    refine .bind (emit_uses _) fun _ => .bind ?_ fun _ => .bind (push_uses _) fun _ => touch_uses _
    cases kind with
    | int => exact .pure _
    | reference =>
      refine .look (fun _ _ => rfl) fun b => ?_
      simp only
      split
      · exact .pure _
      · exact classType_uses rfl
  | store slot kind =>
    refine .bind .pop fun type => .bind (emit_uses _) fun _ => .bind ?_ fun _ => touch_uses _
    exact .change (fun _ => rfl) fun _ _ => rfl
  | arithmetic op => exact .bind (popMany_uses 2) fun _ => .bind (emit_uses _) fun _ => push_uses _
  | newLabel => exact .change (fun _ => rfl) fun _ _ => rfl
  | branch condition label =>
    refine .bind (popMany_uses 2) fun _ => .bind (recordEdge_uses label) fun _ => ?_
    exact .bind (modifyLabel_uses _ _) fun _ => append_uses _
  | jump label =>
    refine .bind (recordEdge_uses label) fun _ => .bind (modifyLabel_uses _ _) fun _ => ?_
    exact .bind (append_uses _) fun _ => .change (fun _ => rfl) fun _ _ => rfl
  | bind label =>
    refine .look (fun _ _ => rfl) fun b => ?_
    cases b.labels[label]? with
    | none => exact .fail_bind id _
    | some l =>
      simp only
      split
      · exact .fail_bind id _
      · refine .look (fun _ _ => rfl) fun b => ?_
        split
        on_goal 1 => refine .bind (recordEdge_uses label) fun _ => ?_
        all_goals
          refine .bind (.change (fun _ => rfl) fun _ _ => rfl) fun _ => .change (fun b => ?_) fun b wanted => ?_
          · cases b.reachable <;> cases b.labels[label]? <;> rfl
          · cases hreach : b.reachable <;> cases hlabel : b.labels[label]? <;> simp [framed, hreach, hlabel]
  | getStatic m =>
    refine fieldType_bind fun type htype => .bind (typeOf_uses fun r hr => .inr ⟨type, htype, hr⟩) fun _ => ?_
    exact .bind (.ask (r := .fieldRef m) (.inl rfl)) fun _ => .bind (emit_uses _) fun _ => push_uses _
  | putStatic m =>
    refine fieldType_bind fun type _ => .bind (.ask (r := .fieldRef m) rfl) fun _ => ?_
    exact .bind .pop fun _ => emit_uses _
  | invokeVirtual m =>
    refine popArguments_bind fun params result htype => .bind .pop fun _ => ?_
    refine .bind (.ask (r := .methodRef m) (.inl rfl)) fun _ => .bind (emit_uses _) fun _ => ?_
    exact pushResult_uses fun r hvoid hr => .inr ⟨params, result, htype, hvoid, hr⟩
  | invokeStatic m =>
    refine popArguments_bind fun params result htype => ?_
    refine .bind (.ask (r := .methodRef m) (.inl rfl)) fun _ => .bind (emit_uses _) fun _ => ?_
    exact pushResult_uses fun r hvoid hr => .inr ⟨params, result, htype, hvoid, hr⟩
  | invokeSpecial m =>
    refine popArguments_bind fun params result htype => .bind .pop fun receiver => ?_
    refine .bind (.ask (r := .methodRef m) (.inl rfl)) fun _ => .bind (emit_uses _) fun _ => ?_
    have hresult : Uses (Call.invokeSpecial m).Asks (pushResult result) :=
      pushResult_uses fun r hvoid hr => .inr (.inr ⟨params, result, htype, hvoid, hr⟩)
    split
    · split
      · exact .look (fun _ _ => rfl) fun _ => .bind (construct_uses _ _) fun _ => hresult
      · exact .bind (classType_uses (.inr (.inl rfl))) fun _ => .bind (construct_uses _ _) fun _ => hresult
      · exact hresult
    · exact hresult
  | new className =>
    refine .look (fun _ _ => rfl) fun b => ?_
    simp only
    split
    · exact .fail_bind id _
    · exact .bind (.ask (r := .classRef className) rfl) fun _ => .bind (emit_uses _) fun _ => push_uses _
  | dup =>
    refine .look (fun _ _ => rfl) fun b => ?_
    split
    · exact .bind (emit_uses _) fun _ => push_uses _
    · exact .fail id

theorem Call.performAll_uses {allowed : Request → Prop} {calls : List Call}
    (h : ∀ c ∈ calls, ∀ r, c.Asks r → allowed r) : Uses allowed (Call.performAll calls) := by
  induction calls with
  | nil => exact .pure _
  | cons c calls ih =>
    obtain ⟨hc, hcalls⟩ := List.forall_mem_cons.1 h
    exact .bind (c.uses.mono hc) fun _ => ih hcalls

end KnightCode
