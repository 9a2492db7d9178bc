import KnightCode.Proofs.MainMethod

/-!
# The slots of local variables

The calls of a program use the local variables of the names that it declares and no others.
-/

namespace KnightCode

def Call.slot? : Call → Option UInt16
  | .load slot _ | .store slot _ => some slot
  | _ => none

/-- The calls use the local variables of declared names only. -/
def UsesSlots (find : Lookup) (calls : List Call) : Prop :=
  ∀ call ∈ calls, ∀ slot, call.slot? = some slot → ∃ name v, find name = some v ∧ v.slot = slot

namespace UsesSlots

variable {find : Lookup} {calls first second : List Call}

theorem none (h : ∀ call ∈ calls, call.slot? = .none) : UsesSlots find calls := by
  intro call hcall slot hslot
  rw [h call hcall] at hslot
  cases hslot

theorem append (h : UsesSlots find first) (h' : UsesSlots find second) : UsesSlots find (first ++ second) := by
  intro call hcall
  rcases List.mem_append.1 hcall with hcall | hcall
  · exact h call hcall
  · exact h' call hcall

theorem append_none (h : UsesSlots find first) (h' : ∀ call ∈ second, call.slot? = .none) :
    UsesSlots find (first ++ second) :=
  h.append (.none h')

theorem load {name : String} {v : Variable} (h : find name = some v) (kind : ValueKind) :
    UsesSlots find [.load v.slot kind] := by
  intro call hcall slot hslot
  obtain rfl := List.mem_singleton.1 hcall
  exact ⟨name, v, h, Option.some.inj hslot⟩

theorem store {name : String} {v : Variable} (h : find name = some v) (kind : ValueKind) :
    UsesSlots find [.store v.slot kind] := by
  intro call hcall slot hslot
  obtain rfl := List.mem_singleton.1 hcall
  exact ⟨name, v, h, Option.some.inj hslot⟩

end UsesSlots

theorem variableCalls_usesSlots (find : Lookup) (name : String) : UsesSlots find (variableCalls find name) := by
  unfold variableCalls
  split
  · next h => exact .load h _
  · exact .none (by simp [Call.slot?])

theorem Expr.usesSlots (find : Lookup) (e : Expr) (n : Nat) : UsesSlots find (e.calls find n) := by
  induction e generalizing n with
  | number value => exact .none (by simp [Expr.calls, Call.slot?])
  | name x => exact variableCalls_usesSlots find x
  | paren inner ih => exact ih n
  | arithmetic op left right ihl ihr => exact ((ihl _).append (ihr _)).append_none (by simp [Call.slot?])
  | compare op left right ihl ihr =>
    have hlabels : UsesSlots find [.newLabel, .newLabel] := .none (by simp [Call.slot?])
    exact ((hlabels.append (ihl _)).append (ihr _)).append_none (by simp [Call.slot?])

theorem Test.usesSlots (find : Lookup) (t : Test) (condition : Condition) (label : Nat) :
    UsesSlots find (t.calls find condition label) := by
  have operand : ∀ o : Operand, UsesSlots find (o.calls find) := by
    intro o
    cases o with
    | number value => exact .none (by simp [Operand.calls, Call.slot?])
    | name x => exact variableCalls_usesSlots find x
  exact ((operand t.left).append (operand t.right)).append_none (by simp [Call.slot?])

theorem block_usesSlots (className : String) (find : Lookup) (body : List Stmt) (n : Nat) :
    UsesSlots find (blockCalls className find body n) := by
  -- A statement about a variable has calls only if the variable is declared.
  have declared : ∀ {name : String} {calls : Variable → List Call},
      (∀ v, find name = some v → UsesSlots find (calls v)) → UsesSlots find ((find name).elim [] calls) := by
    intro name calls h
    cases hname : find name with
    | none => exact .none (by simp)
    | some v => exact h v hname
  have ifElse : ∀ test thenBody elseBody, (∀ n, UsesSlots find (blockCalls className find thenBody n)) →
      (∀ n, UsesSlots find (blockCalls className find elseBody n)) →
      ∀ n, UsesSlots find ((Stmt.ifElse test thenBody elseBody).calls className find n) := by
    intro test thenBody elseBody hthen helse n
    have hlabels : UsesSlots find [.newLabel, .newLabel] := .none (by simp [Call.slot?])
    have htest := (hlabels.append (test.usesSlots find test.op.condition n)).append (helse (n + 2))
    exact ((htest.append_none (by simp [Call.slot?])).append (hthen _)).append_none (by simp [Call.slot?])
  induction body using block_induction
    (P := fun stmt => ∀ n, UsesSlots find (stmt.calls className find n)) generalizing n with
  | printText text n => exact .none (by simp [Stmt.calls, Call.slot?])
  | printName name n =>
    refine declared fun v hv => ?_
    have hget : UsesSlots find [.getStatic Library.output] := .none (by simp [Call.slot?])
    have hprint : UsesSlots find [.invokeVirtual (Library.print v.type)] := .none (by simp [Call.slot?])
    exact (hget.append (.load hv _)).append hprint
  | read name n =>
    refine declared fun v hv => ?_
    refine .append (.none ?_) (.store hv _)
    cases v.type <;> simp [convertCalls, Call.slot?]
  | setText name text n =>
    have htext : UsesSlots find [.pushText text] := .none (by simp [Call.slot?])
    exact declared fun v hv => htext.append (.store hv _)
  | setExpr name value n => exact declared fun v hv => (value.usesSlots find n).append (.store hv _)
  | ifThen test thenBody ih n =>
    rw [Stmt.calls_ifThen]
    exact ifElse test thenBody [] ih (fun _ => .none (by simp [blockCalls])) n
  | ifElse test thenBody elseBody ihthen ihelse n => exact ifElse test thenBody elseBody ihthen ihelse n
  | whileDo test body ih n =>
    have hlabels : UsesSlots find [.newLabel, .newLabel, .bind n] := .none (by simp [Call.slot?])
    exact ((hlabels.append (test.usesSlots find _ _)).append (ih _)).append_none (by simp [Call.slot?])
  | nil => exact .none (by simp [blockCalls])
  | cons stmt rest ihstmt ihrest => exact (ihstmt n).append (ihrest _)

theorem Program.usesSlots (p : Program) (className : String) : UsesSlots p.find (p.calls className) := by
  refine .append ?_ (block_usesSlots className p.find p.body 0)
  intro call hcall slot hslot
  obtain ⟨v, hv, hcall⟩ := List.mem_flatMap.1 hcall
  refine ⟨v.name, v, p.flat_table.lookup?_of_mem hv, ?_⟩
  unfold defaultCalls at hcall
  split at hcall <;> simp at hcall <;> rcases hcall with rfl | rfl <;> simp_all [Call.slot?]

theorem Program.slot_succ (p : Program) {name : String} {v : Variable} (hv : p.find name = some v) :
    v.slot.toNat + 1 < 65536 :=
  (p.flat_table.slot_range (p.flat_table.mem_of_lookup? hv).1).2

end KnightCode
