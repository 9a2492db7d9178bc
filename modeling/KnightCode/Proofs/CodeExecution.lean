import KnightCode.Proofs.CallMachine
import KnightCode.Proofs.Constants
import KnightCode.Proofs.MainMethod
import KnightCode.Proofs.Storage

/-!
# Bytes and calls

Executing the bytes of a method and executing the calls that it was built by is the same: each instruction does what its
call does, an index leads to what the call names, and a jump goes to the address of its label.
-/

namespace KnightCode

/-! ## Instructions -/

theorem Instruction.LoadsInt.execute {c : ClassFile} {i : Instruction} {value : Int32} (h : i.LoadsInt c.pool value)
    (java : JavaText) (s : MachineState) :
    i.execute java c s = s.advance i.size (.ok (s.act.push (.int value), [])) := by
  have hsame : ∀ v : Int32, value.toInt = v.toInt → v = value := fun v hv => Int32.toInt_inj.1 hv.symm
  cases i with
  | iconst n =>
    have hn : Int32.ofInt (n.val - 1) = value := by
      refine hsame _ ?_
      rw [Int32.toInt_ofInt_of_le (by omega) (by omega)]
      exact h
    rw [← hn]
    rfl
  | bipush v =>
    rw [← hsame v.toInt32 (by rw [Int8.toInt_toInt32]; exact h)]
    rfl
  | sipush v =>
    rw [← hsame v.toInt32 (by rw [Int16.toInt_toInt32]; exact h)]
    rfl
  | ldc index =>
    change s.advance 2 (s.act.push? (c.pool.datum? index.toUInt16)) = _
    rw [ConstantPool.IsInteger.datum? h]
    rfl
  | ldcWide index =>
    change s.advance 3 (s.act.push? (c.pool.datum? index)) = _
    rw [ConstantPool.IsInteger.datum? h]
    rfl
  | _ => exact h.elim

theorem Instruction.LoadsText.execute {c : ClassFile} {i : Instruction} {text : String} (h : i.LoadsText c.pool text)
    (java : JavaText) (s : MachineState) :
    i.execute java c s = s.advance i.size (.ok (s.act.push (.text text), [])) := by
  cases i with
  | ldc index =>
    change s.advance 2 (s.act.push? (c.pool.datum? index.toUInt16)) = _
    rw [ConstantPool.IsString.datum? h]
    rfl
  | ldcWide index =>
    change s.advance 3 (s.act.push? (c.pool.datum? index)) = _
    rw [ConstantPool.IsString.datum? h]
    rfl
  | _ => exact h.elim

/-- An instruction that is no jump does what its call does. -/
theorem Call.Emits.execute {c : ClassFile} {call : Call} {i : Instruction} (h : call.Emits c.pool (.plain i))
    (java : JavaText) (s : MachineState) :
    i.execute java c s = s.advance i.size (call.operate java c.static? s.act) := by
  cases call with
  | pushInt value =>
    obtain ⟨j, hj, hloads⟩ := h
    cases hj
    exact hloads.execute java s
  | pushText text =>
    obtain ⟨j, hj, hloads⟩ := h
    cases hj
    exact hloads.execute java s
  | load slot kind =>
    cases h
    change s.advance _ (s.act.load kind (Slot.ofIndex slot).index) = _
    rw [Slot.index_ofIndex]
    rfl
  | store slot kind =>
    cases h
    change s.advance _ (s.act.store kind (Slot.ofIndex slot).index) = _
    rw [Slot.index_ofIndex]
    rfl
  | arithmetic op => cases h; rfl
  | dup => cases h; rfl
  | getStatic m =>
    obtain ⟨k, hk, hfield⟩ := h
    cases hk
    change s.advance _ (s.act.push? ((c.pool.field? k).bind c.static?)) = _
    rw [hfield.field?]
    rfl
  | putStatic m => obtain ⟨k, hk, -⟩ := h; cases hk; rfl
  | invokeVirtual m =>
    obtain ⟨k, hk, hmethod⟩ := h
    cases hk
    change s.advance _ ((c.pool.method? k).elim (.error .wrong) (s.act.invokeVirtual java)) = _
    rw [hmethod.method?]
    rfl
  | invokeStatic m =>
    obtain ⟨k, hk, hmethod⟩ := h
    cases hk
    change s.advance _ ((c.pool.method? k).elim (.error .wrong) (s.act.invokeStatic java)) = _
    rw [hmethod.method?]
    rfl
  | invokeSpecial m => obtain ⟨k, hk, -⟩ := h; cases hk; rfl
  | new className => obtain ⟨k, hk, -⟩ := h; cases hk; rfl
  | branch condition label => cases h
  | jump label => cases h
  | newLabel => exact h.elim
  | bind label => exact h.elim

/-! ## Steps -/

/-- The program counter stands on the first instruction of the calls that are left. -/
def Aligned (calls : List Call) (code : MethodCode) (s : MachineState) (t : CallState) : Prop :=
  s.act = t.act ∧ ∃ done, calls = done ++ t.rest ∧ s.pc = codeSize (code.instructions.take (itemCount done))

def Agree (calls : List Call) (code : MethodCode) : Progress MachineState → Progress CallState → Prop
  | .go s lines, .go t lines' => lines = lines' ∧ Aligned calls code s t
  | .stop outcome, .stop outcome' => outcome = outcome'
  | _, _ => False

theorem ClassFile.step_eq (c : ClassFile) (java : JavaText) {code : List Instruction} {k : Nat} {i : Instruction}
    (hi : code[k]? = some i) (act : Activation) :
    c.step java (assemble code) ⟨codeSize (code.take k), act⟩ = i.execute java c ⟨codeSize (code.take k), act⟩ := by
  rw [ClassFile.step, read_drop_assemble hi]

section Execution

variable {c : ClassFile} {java : JavaText} {pool : ConstantPool} {thisClass : UInt16}
  {entry : List VerificationType} {frames : Bool} {calls done rest : List Call} {b : Body} {code : MethodCode}
  (built : Artifact.Built pool thisClass entry frames calls b code)
include built

theorem jump_agrees {label : Nat} {k p : Nat} {offset : Int16} (hbind : .bind label ∈ calls)
    (hp : b.position? label = some p) (hoffset : offset.toInt = b.address p - b.address k) (act : Activation) :
    Agree calls code (MachineState.jump ⟨codeSize (code.instructions.take k), act⟩ offset)
      (CallMachine.jump ⟨java, c.static?, calls⟩ act label) := by
  obtain ⟨target, htarget⟩ := callsAfter_of_mem hbind
  obtain ⟨done, hcalls⟩ := callsAfter_eq_some htarget
  -- The label stands where its `bind` stands among the calls, and the offset leads there.
  have hplace := built.position? hcalls
  rw [hp] at hplace
  obtain rfl := Option.some.inj hplace
  have hfinished := built.finished
  have hpc : (codeSize (code.instructions.take k) : Int) + offset.toInt =
      codeSize (code.instructions.take (itemCount done)) := by
    rw [hoffset, hfinished.codeSize_take, hfinished.codeSize_take]
    omega
  rw [MachineState.jump, CallMachine.jump, htarget]
  simp only [hpc]
  rw [if_pos (Int.natCast_nonneg _), Int.toNat_natCast]
  refine ⟨rfl, rfl, done ++ [Call.bind label], by simp [hcalls], ?_⟩
  rw [itemCount_append, itemCount_mark rfl]
  rfl

theorem item_agrees (hext : b.pool.Extends c.pool) (hbound : ∀ call ∈ calls, ∀ label, call.label? = some label →
    .bind label ∈ calls) {call : Call} (hcalls : calls = done ++ call :: rest) (hitem : call.isMark = false)
    (act : Activation) :
    Agree calls code
      (c.step java (assemble code.instructions) ⟨codeSize (code.instructions.take (itemCount done)), act⟩)
      (CallMachine.step ⟨java, c.static?, calls⟩ ⟨call :: rest, act⟩) := by
  obtain ⟨item, i, hemits, hi, hbecomes⟩ := built.instruction hcalls hitem
  have hmem : call ∈ calls := by rw [hcalls]; simp
  have hnext : calls = (done ++ [call]) ++ rest := by simp [hcalls]
  have hpc : codeSize (code.instructions.take (itemCount (done ++ [call]))) =
      codeSize (code.instructions.take (itemCount done)) + i.size := by
    rw [itemCount_append, itemCount_item hitem, itemCount_nil, codeSize_take_succ hi]
  rw [c.step_eq java hi]
  -- Plain instructions do what their calls do; branches and jumps go to the calls after their labels.
  obtain ⟨j, rfl, hlabel⟩ | ⟨condition, label, rfl, rfl⟩ | ⟨label, rfl, rfl⟩ := hemits.cases
  · cases hbecomes
    rw [(hemits.mono hext).execute java, CallMachine.step_operate _ hitem hlabel]
    cases hrun : call.operate java c.static? act with
    | error outcome => exact rfl
    | ok r => exact ⟨rfl, rfl, _, hnext, hpc.symm⟩
  · cases hbecomes with
    | branch _ hp hoffset =>
      simp only [Instruction.execute, CallMachine.step]
      cases hcompare : act.compare condition with
      | error outcome => exact rfl
      | ok r =>
        obtain ⟨holds, later⟩ := r
        cases holds with
        | true => exact jump_agrees built (hbound _ hmem label rfl) hp hoffset later
        | false => exact ⟨rfl, rfl, _, hnext, hpc.symm⟩
  · cases hbecomes with
    | jump hp hoffset => exact jump_agrees built (hbound _ hmem label rfl) hp hoffset act

theorem rest_agrees (java : JavaText) (hext : b.pool.Extends c.pool) (hreach : b.reachable = true)
    (hbound : ∀ call ∈ calls, ∀ label, call.label? = some label → .bind label ∈ calls)
    (hcalls : calls = done ++ rest) (act : Activation) :
    ∃ n t, Stepping.Runs (CallMachine.step ⟨java, c.static?, calls⟩) n ⟨rest, act⟩ [] t ∧
      Agree calls code
        (c.step java (assemble code.instructions) ⟨codeSize (code.instructions.take (itemCount done)), act⟩)
        (CallMachine.step ⟨java, c.static?, calls⟩ t) := by
  -- Calls that only mark a place are passed until one comes that has an instruction.
  induction rest generalizing done with
  | nil =>
    rw [List.append_nil] at hcalls
    subst hcalls
    -- After the last call stands the return.
    refine ⟨0, ⟨[], act⟩, .refl _, ?_⟩
    rw [c.step_eq java (built.last hreach)]
    exact rfl
  | cons call rest ih =>
    cases hmark : call.isMark with
    | false => exact ⟨0, _, .refl _, item_agrees built hext hbound hcalls hmark act⟩
    | true =>
      have hnext : calls = (done ++ [call]) ++ rest := by simp [hcalls]
      obtain ⟨n, t, hrun, hagree⟩ := ih hnext
      rw [itemCount_append, itemCount_mark hmark, itemCount_nil, Nat.add_zero] at hagree
      have hstep : CallMachine.step ⟨java, c.static?, calls⟩ ⟨call :: rest, act⟩ = .go ⟨rest, act⟩ [] := by
        cases call <;> first | rfl | cases hmark
      exact ⟨n + 1, t, .cons hstep hrun, hagree⟩

theorem code_simulated (java : JavaText) (hext : b.pool.Extends c.pool) (hreach : b.reachable = true)
    (hbound : ∀ call ∈ calls, ∀ label, call.label? = some label → .bind label ∈ calls) :
    Stepping.Simulates (c.step java (assemble code.instructions)) (CallMachine.step ⟨java, c.static?, calls⟩)
      (Aligned calls code) := by
  refine ⟨?_, ?_⟩
  · rintro ⟨pc, act⟩ s' ⟨rest, _⟩ lines ⟨rfl, done, hcalls, hpc⟩ hstep
    obtain ⟨n, t, hrun, hagree⟩ := rest_agrees built java hext hreach hbound hcalls act
    simp only at hpc
    rw [← hpc, hstep] at hagree
    cases hnext : CallMachine.step ⟨java, c.static?, calls⟩ t with
    | stop outcome => rw [hnext] at hagree; exact hagree.elim
    | go t' lines' =>
      rw [hnext] at hagree
      obtain ⟨rfl, haligned⟩ := hagree
      exact ⟨n, t', hrun.trans (.single hnext), haligned⟩
  · rintro ⟨pc, act⟩ ⟨rest, _⟩ outcome ⟨rfl, done, hcalls, hpc⟩ hstep
    obtain ⟨n, t, hrun, hagree⟩ := rest_agrees built java hext hreach hbound hcalls act
    simp only at hpc
    rw [← hpc, hstep] at hagree
    cases hnext : CallMachine.step ⟨java, c.static?, calls⟩ t with
    | go t' lines' => rw [hnext] at hagree; exact hagree.elim
    | stop outcome' =>
      rw [hnext] at hagree
      obtain rfl : outcome = outcome' := hagree
      exact ⟨n, t, hrun, hnext⟩

end Execution

end KnightCode
