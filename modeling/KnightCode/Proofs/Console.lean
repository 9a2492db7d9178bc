import KnightCode.Proofs.MainMethod

/-!
# When the console is read

A class has a console reader if and only if the program reads a declared variable somewhere, and only then do the calls
of the program use it.
-/

namespace KnightCode

mutual

/-- A declared variable is read somewhere in the statement. -/
def Stmt.reads (types : Typing) : Stmt → Bool
  | .read name => (types name).isSome
  | .ifThen _ thenBody => blockReads types thenBody
  | .ifElse _ thenBody elseBody => blockReads types thenBody || blockReads types elseBody
  | .whileDo _ body => blockReads types body
  | .printText _ | .printName _ | .setText .. | .setExpr .. => false

def blockReads (types : Typing) : List Stmt → Bool
  | [] => false
  | stmt :: rest => stmt.reads types || blockReads types rest

end

/-! ## Plans -/

def Plan.Reads (p : Plan) : Prop := .readsInput ∈ p.actions

section Plans

variable (s : Setting) (p : Plan)

@[simp] theorem Plan.reads_act (a : Action) : (p.act a).Reads ↔ p.Reads ∨ a = .readsInput := by
  simp [Plan.Reads, eq_comm]

@[simp] theorem Plan.reads_call (c : Call) : (p.call c).Reads ↔ p.Reads := by
  simp [Plan.call]

@[simp] theorem Plan.reads_newLabel : p.newLabel.Reads ↔ p.Reads := p.reads_call .newLabel

@[simp] theorem Setting.undeclared_reads (name : String) : (s.undeclared name p).Reads ↔ p.Reads := by
  unfold Setting.undeclared
  split <;> simp

@[simp] theorem planVariable_reads (name : String) : (planVariable s name p).Reads ↔ p.Reads := by
  unfold planVariable
  split <;> simp

@[simp] theorem Expr.plan_reads (e : Expr) (p : Plan) : (e.plan s p).Reads ↔ p.Reads := by
  induction e generalizing p with
  | number value => simp [Expr.plan]
  | name x => simp [Expr.plan]
  | paren inner ih => simp [Expr.plan, ih]
  | arithmetic op left right ihl ihr => simp [Expr.plan, ihl, ihr]
  | compare op left right ihl ihr => simp [Expr.plan, ihl, ihr]

@[simp] theorem Test.plan_reads (t : Test) (condition : Condition) (label : Nat) :
    (t.plan s condition label p).Reads ↔ p.Reads := by
  have operand : ∀ (o : Operand) (p : Plan), (o.plan s p).Reads ↔ p.Reads := by
    intro o p
    cases o <;> simp [Operand.plan]
  simp [Test.plan, operand]

theorem planRead_reads (className : String) (v : Variable) : (planRead className v p).Reads := by
  unfold planRead
  cases v.type <;> simp

theorem planSetText_reads (v : Variable) (text : String) : (planSetText v text p).Reads ↔ p.Reads := by
  unfold planSetText
  split <;> simp

theorem planSetExpr_reads (v : Variable) (value : Expr) : (planSetExpr s v value p).Reads ↔ p.Reads := by
  unfold planSetExpr
  cases value <;> simp only <;> split <;> simp

end Plans

theorem planBlock_reads (body : List Stmt) : ∀ (s : Setting) (p : Plan),
    (planBlock s body p).Reads ↔ p.Reads ∨ blockReads (Lookup.typing s.scope.lookup?) body = true := by
  induction body using block_induction
    (P := fun stmt => ∀ s p, (stmt.plan s p).Reads ↔ p.Reads ∨ stmt.reads (Lookup.typing s.scope.lookup?) = true) with
  | printText text s p => simp [Stmt.plan, Stmt.reads]
  | printName name s p =>
    cases h : s.scope.lookup? name <;> simp [Stmt.plan, Stmt.reads, Setting.withVariable, h, planPrint]
  | read name s p =>
    cases h : s.scope.lookup? name with
    | none => simp [Stmt.plan, Stmt.reads, Setting.withVariable, h, Lookup.typing]
    | some v => simp [Stmt.plan, Stmt.reads, Setting.withVariable, h, Lookup.typing, planRead_reads]
  | setText name text s p =>
    cases h : s.scope.lookup? name <;> simp [Stmt.plan, Stmt.reads, Setting.withVariable, h, planSetText_reads]
  | setExpr name value s p =>
    cases h : s.scope.lookup? name <;> simp [Stmt.plan, Stmt.reads, Setting.withVariable, h, planSetExpr_reads]
  | ifThen test thenBody ih s p => simp [Stmt.plan, Stmt.reads, ih, Setting.lookup?_nested]
  | ifElse test thenBody elseBody ihthen ihelse s p =>
    simp only [Stmt.plan, Stmt.reads, ihthen, ihelse, Setting.lookup?_nested, Plan.reads_call, Test.plan_reads,
      Plan.reads_newLabel, Bool.or_eq_true, or_assoc]
    -- The other way is compiled first.
    exact or_congr_right or_comm
  | whileDo test body ih s p => simp [Stmt.plan, Stmt.reads, ih, Setting.lookup?_nested]
  | nil => intro s p; simp [planBlock, blockReads]
  | cons stmt rest ihstmt ihrest => intro s p; simp [planBlock, blockReads, ihstmt, ihrest, or_assoc]

theorem Program.fullPlan_reads (p : Program) (className : String) (policy : UndeclaredPolicy) :
    .readsInput ∈ (p.fullPlan className policy).actions.toList ↔ blockReads p.find.typing p.body = true := by
  obtain ⟨new, declaring, hdeclared, hactions, -⟩ :=
    ScopeTable.planDeclarations_spec (p.declarations.getD []) ScopeTable.flat_empty ⟨0, #[]⟩
  have hfirst : ¬(planDeclarations .empty (p.declarations.getD []) ⟨0, #[]⟩).2.Reads := by
    rw [Plan.Reads, ← Array.mem_toList_iff, hactions]
    simpa using hdeclared.readsInput
  have hblock := planBlock_reads p.body (p.setting className policy)
    (planDeclarations .empty (p.declarations.getD []) ⟨0, #[]⟩).2
  rw [Array.mem_toList_iff]
  exact hblock.trans (or_iff_right hfirst)

/-! ## Calls -/

theorem not_mem_variableCalls {find : Lookup} {name : String} {m : MemberRef} :
    .getStatic m ∉ variableCalls find name := by
  unfold variableCalls
  split <;> simp

theorem Expr.getStatic_not_mem {find : Lookup} {m : MemberRef} (e : Expr) (n : Nat) :
    .getStatic m ∉ e.calls find n := by
  induction e generalizing n with
  | number value => simp [Expr.calls]
  | name x => exact not_mem_variableCalls
  | paren inner ih => exact ih n
  | arithmetic op left right ihl ihr => simp [Expr.calls, ihl, ihr]
  | compare op left right ihl ihr => simp [Expr.calls, ihl, ihr]

theorem Test.getStatic_not_mem {find : Lookup} {m : MemberRef} (t : Test) (condition : Condition) (label : Nat) :
    .getStatic m ∉ t.calls find condition label := by
  have operand : ∀ o : Operand, .getStatic m ∉ o.calls find := by
    intro o
    cases o with
    | number value => simp [Operand.calls]
    | name x => exact not_mem_variableCalls
  simp [Test.calls, operand]

theorem console_ne_output (className : String) : Library.console className ≠ Library.output := by
  intro h
  have := congrArg MemberRef.name h
  simp [Library.console, Library.output] at this

/-- Only the calls of a block that reads use the console. -/
theorem blockReads_of_mem {className : String} {find : Lookup} (body : List Stmt) : ∀ n,
    .getStatic (Library.console className) ∈ blockCalls className find body n →
      blockReads find.typing body = true := by
  have hconsole := console_ne_output className
  induction body using block_induction
    (P := fun stmt => ∀ n, .getStatic (Library.console className) ∈ stmt.calls className find n →
      stmt.reads find.typing = true) with
  | printText text n h => simp [Stmt.calls, hconsole] at h
  | printName name n h => cases hv : find name <;> simp [Stmt.calls, hv, printCalls, hconsole] at h
  | read name n h =>
    cases hv : find name with
    | none => simp [Stmt.calls, hv] at h
    | some v => simp [Stmt.reads, hv, Lookup.typing]
  | setText name text n h => cases hv : find name <;> simp [Stmt.calls, hv] at h
  | setExpr name value n h => cases hv : find name <;> simp [Stmt.calls, hv, Expr.getStatic_not_mem] at h
  | ifThen test thenBody ih n h =>
    simp only [Stmt.calls, List.mem_append, Test.getStatic_not_mem, List.mem_cons, List.not_mem_nil, reduceCtorEq,
      or_false, false_or] at h
    exact ih _ h
  | ifElse test thenBody elseBody ihthen ihelse n h =>
    simp only [Stmt.calls, List.mem_append, Test.getStatic_not_mem, List.mem_cons, List.not_mem_nil, reduceCtorEq,
      or_false, false_or] at h
    rw [Stmt.reads, Bool.or_eq_true]
    exact (h.imp (ihelse _) (ihthen _)).symm
  | whileDo test body ih n h =>
    simp only [Stmt.calls, List.mem_append, Test.getStatic_not_mem, List.mem_cons, List.not_mem_nil, reduceCtorEq,
      or_false, false_or] at h
    exact ih _ h
  | nil => simp [blockCalls]
  | cons stmt rest ihstmt ihrest =>
    intro n h
    rw [blockReads, Bool.or_eq_true]
    exact (List.mem_append.1 h).imp (ihstmt _) (ihrest _)

theorem Program.reads_of_mem (p : Program) {className : String}
    (h : .getStatic (Library.console className) ∈ p.calls className) : blockReads p.find.typing p.body = true := by
  rcases List.mem_append.1 h with h | h
  · obtain ⟨v, -, hv⟩ := List.mem_flatMap.1 h
    unfold defaultCalls at hv
    split at hv <;> simp at hv
  · exact blockReads_of_mem p.body 0 h

end KnightCode
