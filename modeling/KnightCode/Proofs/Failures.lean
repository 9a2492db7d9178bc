import KnightCode.Proofs.Slots

/-!
# Why compiling fails

A program is refused for a reason that its author can see: the class name, a variable that is not declared, or a limit
of class files. No fault of the compiler itself can come up, whatever the program.
-/

namespace KnightCode

/-- A fault with a reason that lies in the program, in the class name or in the limits of class files. -/
def Fault.HasReason (program : Program) (className : String) (options : Options) : Fault → Prop
  | .code (.invalidClassName name) => name = className ∧ ClassName.isValid className = false
  | .undeclared name => options.policy = .fatal ∧ program.typing name = none
  | .code (.pool .full) | .code (.tooManyVariables _) => True
  | .code (.pool (.textTooLong length)) => 65535 < length
  | .code (.bodyTooLarge size) => 65535 < size
  | .code (.branchTooFar offset) => offset < -32768 ∨ 32767 < offset
  | _ => False

section Reasons

variable {program : Program} {className : String} {options : Options} {f : Fault}

theorem Fault.IsPool.hasReason (h : f.IsPool) : f.HasReason program className options := by
  match f, h with
  | .code (.pool .full), _ => trivial
  | .code (.pool (.textTooLong length)), h => exact h

theorem Fault.IsSize.hasReason (h : f.IsSize) : f.HasReason program className options := by
  match f, h with
  | .code (.bodyTooLarge size), h => exact h
  | .code (.branchTooFar offset), h => exact h

theorem Fault.IsLimit.hasReason (h : f.IsLimit) : f.HasReason program className options :=
  h.elim Fault.IsPool.hasReason Fault.IsSize.hasReason

theorem Artifact.IsOpeningFault.hasReason (h : Artifact.IsOpeningFault className f) :
    f.HasReason program className options := by
  obtain h | ⟨rfl, hname⟩ := h
  · exact h.hasReason
  · exact ⟨rfl, hname⟩

theorem Artifact.IsProgramFault.hasReason (h : Artifact.IsProgramFault program options f) :
    f.HasReason program className options := by
  obtain h | ⟨name, rfl⟩ | ⟨hpolicy, name, rfl, hname⟩ := h
  · exact h.hasReason
  · trivial
  · exact ⟨hpolicy, hname⟩

end Reasons

/-! ## The reasons -/

/-- Whatever the program, the class name and the options: compiling fails only for a reason that lies in the program, in
the class name or in the limits of class files; the changes of the scope table never fail; and no call on a body uses a
local variable after which there is no other. -/
theorem Artifact.fails_for_a_reason (program : Program) (className : String) (options : Options) :
    (∀ failure, ofProgram program className options = .error failure →
      failure.fault.HasReason program className options) ∧
    (∃ t, rescope (program.fullPlan className options.policy).actions.toList .empty = .ok () t) ∧
    ∀ call ∈ constructorCalls ++ callsOf (program.fullPlan className options.policy).actions.toList ++
        consoleCalls className, ∀ slot, call.slot? = some slot → (slot + 1).toNat = slot.toNat + 1 := by
  obtain ⟨declaring, doing, planned⟩ := program.planned className options.policy
  refine ⟨?_, ?_, ?_⟩
  · intro failure hfailure
    have hcases := ofProgram_cases program className options
    rw [hfailure] at hcases
    rcases hcases with hopening | hprogram | hlimit
    · exact hopening.hasReason
    · exact hprogram.hasReason
    · exact hlimit.hasReason
  · rw [planned.actions]
    exact planned.rescope_eq
  · rw [planned.actions, planned.calls]
    intro call hcall slot hslot
    have hroom : slot.toNat + 1 < 65536 := by
      rcases List.mem_append.1 hcall with hcall | hcall
      · rcases List.mem_append.1 hcall with hcall | hcall
        · simp only [constructorCalls, List.mem_cons, List.not_mem_nil, or_false] at hcall
          rcases hcall with rfl | rfl
          · cases hslot
            decide
          · cases hslot
        · obtain ⟨name, v, hv, rfl⟩ := program.usesSlots className call hcall slot hslot
          exact program.slot_succ hv
      · simp only [consoleCalls, List.mem_cons, List.not_mem_nil, or_false] at hcall
        rcases hcall with rfl | rfl | rfl | rfl | rfl <;> cases hslot
    rw [UInt16.toNat_add, UInt16.toNat_one, Nat.mod_eq_of_lt hroom]

def strayName : Program :=
  ⟨"Stray", some [⟨.integer, "x"⟩],
    [.whileDo ⟨.name "x", .less, .number 3⟩ [.setExpr "x" (.compare .less (.name "x") (.name "y"))]]⟩

theorem Artifact.fails_for_a_reason_stray :
    ofProgram strayName "Stray" ⟨true, .fatal, none⟩ = .error ⟨.undeclared "y", []⟩ ∧
      (Fault.undeclared "y").HasReason strayName "Stray" ⟨true, .fatal, none⟩ := by
  have hrun : (match ofProgram strayName "Stray" ⟨true, .fatal, none⟩ with
      | .error failure => some failure
      | .ok _ => none) = some ⟨.undeclared "y", []⟩ := by
    decide +kernel
  split at hrun
  · next failure hfailure =>
    cases hrun
    exact ⟨hfailure, (fails_for_a_reason strayName "Stray" ⟨true, .fatal, none⟩).1 _ hfailure⟩
  · cases hrun

end KnightCode
