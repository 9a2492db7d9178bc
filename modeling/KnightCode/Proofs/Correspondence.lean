import KnightCode.Proofs.ScopeHistory

/-!
# Corresponding plans

A plan depends on the variables only through their names, types and slots. If the names of a program are replaced and the
new names stand for variables of the same types and slots, the plan differs only in the names that its actions have.
-/

namespace KnightCode

/-! ## Programs with other names -/

def Expr.renamed (f : String → String) : Expr → Expr
  | .number value => .number value
  | .name x => .name (f x)
  | .paren inner => .paren (inner.renamed f)
  | .arithmetic op left right => .arithmetic op (left.renamed f) (right.renamed f)
  | .compare op left right => .compare op (left.renamed f) (right.renamed f)

def Operand.renamed (f : String → String) : Operand → Operand
  | .number value => .number value
  | .name x => .name (f x)

def Test.renamed (f : String → String) (t : Test) : Test := ⟨t.left.renamed f, t.op, t.right.renamed f⟩

mutual

def Stmt.renamed (f : String → String) : Stmt → Stmt
  | .printText text => .printText text
  | .printName name => .printName (f name)
  | .read name => .read (f name)
  | .setText name text => .setText (f name) text
  | .setExpr name value => .setExpr (f name) (value.renamed f)
  | .ifThen test thenBody => .ifThen (test.renamed f) (renamedBlock f thenBody)
  | .ifElse test thenBody elseBody => .ifElse (test.renamed f) (renamedBlock f thenBody) (renamedBlock f elseBody)
  | .whileDo test body => .whileDo (test.renamed f) (renamedBlock f body)

def renamedBlock (f : String → String) : List Stmt → List Stmt
  | [] => []
  | stmt :: rest => stmt.renamed f :: renamedBlock f rest

end

def Declaration.renamed (f : String → String) (d : Declaration) : Declaration := ⟨d.type, f d.name⟩

def Program.renamed (f : String → String) (p : Program) : Program :=
  ⟨p.name, p.declarations.map (List.map (Declaration.renamed f)), renamedBlock f p.body⟩

/-! ### The names of a program -/

def Expr.names : Expr → List String
  | .number _ => []
  | .name x => [x]
  | .paren inner => inner.names
  | .arithmetic _ left right | .compare _ left right => left.names ++ right.names

def Operand.names : Operand → List String
  | .number _ => []
  | .name x => [x]

def Test.names (t : Test) : List String := t.left.names ++ t.right.names

mutual

def Stmt.names : Stmt → List String
  | .printText _ => []
  | .printName name | .read name | .setText name _ => [name]
  | .setExpr name value => name :: value.names
  | .ifThen test thenBody => test.names ++ blockNames thenBody
  | .ifElse test thenBody elseBody => test.names ++ (blockNames thenBody ++ blockNames elseBody)
  | .whileDo test body => test.names ++ blockNames body

def blockNames : List Stmt → List String
  | [] => []
  | stmt :: rest => stmt.names ++ blockNames rest

end

def Program.variables (p : Program) : List String := (p.declarations.getD []).map (·.name) ++ blockNames p.body

/-! ## Actions and settings -/

namespace Plan

def mapped (g : Action → Action) (p : Plan) : Plan := ⟨p.labels, p.actions.map g⟩

@[simp] theorem labels_mapped (g : Action → Action) (p : Plan) : (p.mapped g).labels = p.labels := rfl

theorem mapped_act (g : Action → Action) (p : Plan) (a : Action) : (p.act a).mapped g = (p.mapped g).act (g a) := by
  simp [mapped, act]

theorem mapped_empty (g : Action → Action) (labels : Nat) : mapped g ⟨labels, #[]⟩ = ⟨labels, #[]⟩ := by simp [mapped]

end Plan

/-- In the actions that are planned with a declared variable, `g` changes the names as `f` does and nothing else. -/
structure Action.Follows (f : String → String) (g : Action → Action) : Prop where
  call : ∀ c, g (.call c) = .call c
  readsInput : g .readsInput = .readsInput
  declare : ∀ x type, g (.declare x type) = .declare (f x) type
  remember : ∀ x value, g (.remember x value) = .remember (f x) value
  redeclared : ∀ x type, g (.notice (.redeclared x type)) = .notice (.redeclared (f x) type)
  textAssigned : ∀ type x, g (.notice (.textAssigned type x)) = .notice (.textAssigned type (f x))
  typesDiffer : ∀ valueType type x,
    g (.notice (.typesDiffer valueType type x)) = .notice (.typesDiffer valueType type (f x))
  tooMany : ∀ x, g (.fail (.code (.tooManyVariables x))) = .fail (.code (.tooManyVariables (f x)))

/-- Two variables that differ at most in their values and, as `f` says, in their names. -/
structure Variable.Like (f : String → String) (v v' : Variable) : Prop where
  name : v'.name = f v.name
  type : v'.type = v.type
  slot : v'.slot = v.slot

/-- The tables have variables that are alike under the names that are used. -/
structure ScopeTable.Corresponds (f : String → String) (used : List String) (t t' : ScopeTable) : Prop where
  nextSlot : t'.nextSlot = t.nextSlot
  known : ∀ x ∈ used, f x ∈ t'.known ↔ x ∈ t.known
  lookup : ∀ x ∈ used, Option.Rel (Variable.Like f) (t.lookup? x) (t'.lookup? (f x))

/-- The settings differ only in the names of the variables. What is planned in one of them about a variable that is not
declared is what `g` makes of what is planned in the other one. -/
structure Setting.Corresponds (f : String → String) (g : Action → Action) (used : List String) (s s' : Setting) :
    Prop where
  follows : Action.Follows f g
  className : s'.className = s.className
  scope : s.scope.Corresponds f used s'.scope
  undeclared : ∀ x p, (s.undeclared x p).mapped g = s'.undeclared (f x) (p.mapped g)

section Tables

variable {f : String → String} {used : List String} {t t' : ScopeTable}

namespace ScopeTable

theorem lookup?_extended {v : Variable} (fresh : v.name ∉ t.known) (x : String) :
    (t.extended v).lookup? x = if v.name = x then some v else t.lookup? x := by
  have hold : v.name = x → t.current.find? (fun w => w.name = x) = none := by
    rintro rfl
    rw [List.find?_eq_none]
    intro w hw heq
    exact fresh (List.mem_map.2 ⟨w, hw, by simpa using heq⟩)
  have hfind : (t.extended v).innermost.find? x = (t.current ++ [v]).find? (fun w => w.name = x) := by
    rw [Register.find?_eq, ← current_extended]
    rfl
  rw [lookup?, hfind, List.find?_append, lookup?, Register.find?_eq]
  split
  · next heq =>
    rw [hold heq]
    simp [heq]
  · next hne =>
    rw [show [v].find? (fun w => w.name = x) = none by simp [hne], Option.or_none]
    rfl

namespace Corresponds

theorem empty (f : String → String) (used : List String) : Corresponds f used .empty .empty :=
  ⟨rfl, by simp [ScopeTable.known, current, ScopeTable.empty], fun _ _ => .none⟩

theorem refl (t : ScopeTable) (used : List String) : Corresponds id used t t := by
  refine ⟨rfl, fun _ _ => .rfl, ?_⟩
  intro x _
  rw [id]
  cases t.lookup? x with
  | none => exact .none
  | some v => exact .some ⟨rfl, rfl, rfl⟩

theorem enter (h : Corresponds f used t t') : Corresponds f used t.enter t'.enter :=
  ⟨h.nextSlot, by simp [ScopeTable.known, current, ScopeTable.enter], by simpa using h.lookup⟩

theorem lookup_cases (h : Corresponds f used t t') {x : String} (hx : x ∈ used) :
    (t.lookup? x = none ∧ t'.lookup? (f x) = none) ∨
      ∃ v v', t.lookup? x = some v ∧ t'.lookup? (f x) = some v' ∧ Variable.Like f v v' := by
  have hrel := h.lookup x hx
  revert hrel
  generalize t.lookup? x = o
  generalize t'.lookup? (f x) = o'
  rintro (hlike | _)
  · exact .inr ⟨_, _, rfl, rfl, hlike⟩
  · exact .inl ⟨rfl, rfl⟩

theorem extended (h : Corresponds f used t t') (inj : ∀ x ∈ used, ∀ y ∈ used, f x = f y → x = y) {d : Declaration}
    (hd : d.name ∈ used) (fresh : d.name ∉ t.known) :
    Corresponds f used (t.extended (d.variable t.nextSlot))
      (t'.extended ((d.renamed f).variable t'.nextSlot)) := by
  have hname : ∀ x ∈ used, f d.name = f x ↔ d.name = x :=
    fun x hx => ⟨inj d.name hd x hx, congrArg f⟩
  refine ⟨congrArg (· + 1) h.nextSlot, ?_, ?_⟩
  · intro x hx
    rw [known_extended, known_extended, List.mem_append, List.mem_append, h.known x hx, List.mem_singleton,
      List.mem_singleton, eq_comm, Declaration.renamed, hname x hx, eq_comm]
  · intro x hx
    have fresh' : f d.name ∉ t'.known := fun hmem => fresh ((h.known d.name hd).1 hmem)
    rw [lookup?_extended fresh, lookup?_extended fresh']
    -- Since `f` is injective on the names, the two tables ask the same question.
    by_cases heq : d.name = x
    · simp only [Declaration.variable, Declaration.renamed, heq, if_true]
      exact .some ⟨rfl, rfl, h.nextSlot⟩
    · have hne' : f d.name ≠ f x := fun heq' => heq ((hname x hx).1 heq')
      simp only [Declaration.variable, Declaration.renamed, heq, hne', if_false]
      exact h.lookup x hx

end Corresponds

end ScopeTable

end Tables

section Plans

variable {f : String → String} {g : Action → Action} {used : List String} {s s' : Setting}

/-! ## Expressions and tests -/

namespace Action.Follows

theorem mapped_call (h : Action.Follows f g) (p : Plan) (c : Call) : (p.call c).mapped g = (p.mapped g).call c := by
  rw [Plan.call, Plan.mapped_act, h.call, Plan.call]

theorem mapped_newLabel (h : Action.Follows f g) (p : Plan) : p.newLabel.mapped g = (p.mapped g).newLabel := by
  simp [Plan.mapped, Plan.newLabel, Plan.call, Plan.act, h.call]

end Action.Follows

namespace Setting.Corresponds

theorem nested (h : Corresponds f g used s s') : Corresponds f g used s.nested s'.nested :=
  ⟨h.follows, h.className, h.scope.enter, h.undeclared⟩

theorem withVariable (h : Corresponds f g used s s') {x : String} (hx : x ∈ used) (p : Plan)
    {next next' : Variable → Plan} (hnext : ∀ v v', Variable.Like f v v' → (next v).mapped g = next' v') :
    (s.withVariable x p next).mapped g = s'.withVariable (f x) (p.mapped g) next' := by
  unfold Setting.withVariable
  rcases h.scope.lookup_cases hx with ⟨hnone, hnone'⟩ | ⟨v, v', hv, hv', hlike⟩
  · rw [hnone, hnone']
    exact h.undeclared x p
  · rw [hv, hv']
    exact hnext v v' hlike

theorem variablePlan (h : Corresponds f g used s s') {x : String} (hx : x ∈ used) (p : Plan) :
    (planVariable s x p).mapped g = planVariable s' (f x) (p.mapped g) := by
  unfold planVariable
  rcases h.scope.lookup_cases hx with ⟨hnone, hnone'⟩ | ⟨v, v', hv, hv', hlike⟩
  · rw [hnone, hnone']
    simp only [h.follows.mapped_call, h.undeclared]
  · rw [hv, hv']
    simp only [h.follows.mapped_call, hlike.slot, hlike.type]

theorem exprType (h : Corresponds f g used s s') {e : Expr} (he : e.names ⊆ used) :
    (e.renamed f).type s'.scope = e.type s.scope := by
  induction e with
  | name x =>
    simp only [Expr.renamed, Expr.type]
    rcases h.scope.lookup_cases (he (.head _)) with ⟨hnone, hnone'⟩ | ⟨v, v', hv, hv', hlike⟩
    · rw [hnone, hnone']
    · rw [hv, hv', Option.map_some, Option.map_some, hlike.type]
  | paren inner ih => exact ih he
  | _ => rfl

theorem exprPlan (h : Corresponds f g used s s') {e : Expr} (he : e.names ⊆ used) (p : Plan) :
    (e.plan s p).mapped g = (e.renamed f).plan s' (p.mapped g) := by
  induction e generalizing p with
  | number value => exact h.follows.mapped_call p _
  | name x => exact h.variablePlan (he (.head _)) p
  | paren inner ih => exact ih he p
  | arithmetic op left right ihLeft ihRight =>
    obtain ⟨hleft, hright⟩ := List.append_subset.1 he
    simp only [Expr.plan, Expr.renamed, h.follows.mapped_call, ihLeft hleft, ihRight hright]
  | compare op left right ihLeft ihRight =>
    obtain ⟨hleft, hright⟩ := List.append_subset.1 he
    simp only [Expr.plan, Expr.renamed, h.follows.mapped_call, h.follows.mapped_newLabel, ihLeft hleft, ihRight hright,
      Plan.labels_mapped]

theorem operandPlan (h : Corresponds f g used s s') {o : Operand} (ho : o.names ⊆ used) (p : Plan) :
    (o.plan s p).mapped g = (o.renamed f).plan s' (p.mapped g) := by
  cases o with
  | number value => exact h.follows.mapped_call p _
  | name x => exact h.variablePlan (ho (.head _)) p

theorem testPlan (h : Corresponds f g used s s') {t : Test} (ht : t.names ⊆ used) (condition : Condition) (label : Nat)
    (p : Plan) :
    (t.plan s condition label p).mapped g = (t.renamed f).plan s' condition label (p.mapped g) := by
  obtain ⟨hleft, hright⟩ := List.append_subset.1 ht
  simp only [Test.plan, Test.renamed, h.follows.mapped_call, h.operandPlan hleft, h.operandPlan hright]

/-! ## Statements -/

theorem printPlan (h : Corresponds f g used s s') {v v' : Variable} (hlike : Variable.Like f v v') (p : Plan) :
    (planPrint v p).mapped g = planPrint v' (p.mapped g) := by
  simp only [planPrint, h.follows.mapped_call, hlike.slot, hlike.type]

theorem readPlan (h : Corresponds f g used s s') {v v' : Variable} (hlike : Variable.Like f v v') (p : Plan) :
    (planRead s.className v p).mapped g = planRead s'.className v' (p.mapped g) := by
  unfold planRead
  rw [h.className, hlike.slot, hlike.type]
  cases v.type <;> simp only [h.follows.mapped_call, Plan.mapped_act, h.follows.readsInput]

theorem setTextPlan (h : Corresponds f g used s s') {v v' : Variable} (hlike : Variable.Like f v v') (text : String)
    (p : Plan) : (planSetText v text p).mapped g = planSetText v' text (p.mapped g) := by
  unfold planSetText
  rw [hlike.slot, hlike.type, hlike.name]
  split <;> simp only [h.follows.mapped_call, Plan.mapped_act, h.follows.textAssigned, h.follows.remember]

theorem setExprPlan (h : Corresponds f g used s s') {v v' : Variable} (hlike : Variable.Like f v v') {value : Expr}
    (hvalue : value.names ⊆ used) (p : Plan) :
    (planSetExpr s v value p).mapped g = planSetExpr s' v' (value.renamed f) (p.mapped g) := by
  -- The notice comes before the value, and what is remembered after it.
  have hnotice : ∀ type, (if type ≠ v.type then p.act (.notice (.typesDiffer type v.type v.name)) else p).mapped g =
      if type ≠ v.type then (p.mapped g).act (.notice (.typesDiffer type v.type (f v.name))) else p.mapped g := by
    intro type
    split
    · rw [Plan.mapped_act, h.follows.typesDiffer]
    · rfl
  unfold planSetExpr
  rw [hlike.slot, hlike.type, hlike.name, h.exprType hvalue]
  cases value <;>
    simp only [Expr.renamed, h.follows.mapped_call, h.exprPlan hvalue, hnotice, Plan.mapped_act, h.follows.remember]

theorem blockPlan (body : List Stmt) : ∀ s s' : Setting, Corresponds f g used s s' → blockNames body ⊆ used →
    ∀ p, (planBlock s body p).mapped g = planBlock s' (renamedBlock f body) (p.mapped g) := by
  induction body using block_induction
    (P := fun stmt => ∀ s s' : Setting, Corresponds f g used s s' → stmt.names ⊆ used →
      ∀ p, (stmt.plan s p).mapped g = (stmt.renamed f).plan s' (p.mapped g)) with
  | printText text s s' h _ p =>
    simp only [Stmt.plan, Stmt.renamed, h.follows.mapped_call]
  | printName name s s' h hnames p =>
    exact h.withVariable (hnames (.head _)) p fun v v' hlike => h.printPlan hlike p
  | read name s s' h hnames p =>
    exact h.withVariable (hnames (.head _)) p fun v v' hlike => h.readPlan hlike p
  | setText name text s s' h hnames p =>
    exact h.withVariable (hnames (.head _)) p fun v v' hlike => h.setTextPlan hlike text p
  | setExpr name value s s' h hnames p =>
    obtain ⟨hname, hvalue⟩ := List.cons_subset.1 hnames
    exact h.withVariable hname p fun v v' hlike => h.setExprPlan hlike hvalue p
  | ifThen test thenBody ih s s' h hnames p =>
    obtain ⟨htest, hbody⟩ := List.append_subset.1 hnames
    simp only [Stmt.plan, Stmt.renamed, h.follows.mapped_call, h.follows.mapped_newLabel, h.testPlan htest,
      ih _ _ h.nested hbody, Plan.labels_mapped]
    rfl
  | ifElse test thenBody elseBody ihThen ihElse s s' h hnames p =>
    obtain ⟨htest, hbodies⟩ := List.append_subset.1 hnames
    obtain ⟨hthen, helse⟩ := List.append_subset.1 hbodies
    simp only [Stmt.plan, Stmt.renamed, h.follows.mapped_call, h.follows.mapped_newLabel, h.testPlan htest,
      ihThen _ _ h.nested hthen, ihElse _ _ h.nested helse, Plan.labels_mapped]
    rfl
  | whileDo test body ih s s' h hnames p =>
    obtain ⟨htest, hbody⟩ := List.append_subset.1 hnames
    simp only [Stmt.plan, Stmt.renamed, h.follows.mapped_call, h.follows.mapped_newLabel, h.testPlan htest,
      ih _ _ h.nested hbody, Plan.labels_mapped]
    rfl
  | nil =>
    intro s s' _ _ p
    rfl
  | cons stmt rest ihStmt ihRest =>
    intro s s' h hnames p
    obtain ⟨hstmt, hrest⟩ := List.append_subset.1 hnames
    simp only [planBlock, renamedBlock, ihStmt _ _ h hstmt, ihRest _ _ h hrest]

end Setting.Corresponds

/-! ## Declarations and programs -/

theorem Action.Follows.mapped_planDefault (h : Action.Follows f g) {v v' : Variable} (hlike : Variable.Like f v v')
    (p : Plan) : (planDefault v p).mapped g = planDefault v' (p.mapped g) := by
  unfold planDefault
  rw [hlike.slot, hlike.type]
  cases v.type <;> simp only [h.mapped_call]

theorem ScopeTable.Corresponds.declarationsPlan (follows : Action.Follows f g)
    (inj : ∀ x ∈ used, ∀ y ∈ used, f x = f y → x = y) (decls : List Declaration) :
    ∀ {t t' : ScopeTable}, Corresponds f used t t' → decls.map (·.name) ⊆ used → ∀ p,
      Corresponds f used (planDeclarations t decls p).1
        (planDeclarations t' (decls.map (Declaration.renamed f)) (p.mapped g)).1 ∧
      (planDeclarations t decls p).2.mapped g =
        (planDeclarations t' (decls.map (Declaration.renamed f)) (p.mapped g)).2 := by
  induction decls with
  | nil =>
    intro t t' h _ p
    exact ⟨h, rfl⟩
  | cons d decls ih =>
    intro t t' h hnames p
    obtain ⟨hd, hrest⟩ := List.cons_subset.1 hnames
    rw [List.map_cons, planDeclarations, planDeclarations]
    -- Both tables are full, or have the name, or take it, since they correspond.
    by_cases full : t.nextSlot = 65535
    · rw [declare_full full, declare_full (h.nextSlot.trans full)]
      exact ⟨h, by rw [Plan.mapped_act, follows.tooMany]; rfl⟩
    have room : t'.nextSlot ≠ 65535 := fun full' => full (h.nextSlot.symm.trans full')
    by_cases again : d.name ∈ t.known
    · rw [declare_again full again, declare_again room (show (d.renamed f).name ∈ t'.known from (h.known _ hd).2 again)]
      have hrun := ih h hrest (p.act (.notice (.redeclared d.name d.type)))
      rwa [Plan.mapped_act, follows.redeclared] at hrun
    · have fresh' : (d.renamed f).name ∉ t'.known := fun hmem => again ((h.known _ hd).1 hmem)
      have hlike : Variable.Like f (d.variable t.nextSlot) ((d.renamed f).variable t'.nextSlot) :=
        ⟨rfl, rfl, h.nextSlot⟩
      rw [declare_fresh full again, declare_fresh room fresh']
      have hrun := ih (h.extended inj hd again) hrest
        (planDefault (d.variable t.nextSlot) (p.act (.declare d.name d.type)))
      rw [follows.mapped_planDefault hlike, Plan.mapped_act, follows.declare] at hrun
      exact hrun

theorem Setting.Corresponds.programPlan {p : Program} (h : Corresponds f g p.variables s s')
    (inj : ∀ x ∈ p.variables, ∀ y ∈ p.variables, f x = f y → x = y) (q : Plan) :
    (p.plan s q).mapped g = (p.renamed f).plan s' (q.mapped g) := by
  obtain ⟨hdeclared, hbody⟩ := List.append_subset.1 (List.Subset.refl p.variables)
  have hdeclarations : (p.renamed f).declarations.getD [] =
      (p.declarations.getD []).map (Declaration.renamed f) := by
    cases hp : p.declarations <;> simp [Program.renamed, hp]
  obtain ⟨htable, hplan⟩ := h.scope.declarationsPlan h.follows inj (p.declarations.getD []) hdeclared q
  rw [← hdeclarations] at htable hplan
  have hblock := blockPlan p.body { s with scope := (planDeclarations s.scope (p.declarations.getD []) q).1 }
    { s' with scope := (planDeclarations s'.scope ((p.renamed f).declarations.getD []) (q.mapped g)).1 }
    ⟨h.follows, h.className, htable, h.undeclared⟩ hbody (planDeclarations s.scope (p.declarations.getD []) q).2
  rw [hplan] at hblock
  exact hblock

end Plans

/-! ## No other names -/

theorem Expr.renamed_id (e : Expr) : e.renamed id = e := by
  induction e with
  | number value => rfl
  | name x => rfl
  | paren inner ih => rw [Expr.renamed, ih]
  | arithmetic op left right ihLeft ihRight => rw [Expr.renamed, ihLeft, ihRight]
  | compare op left right ihLeft ihRight => rw [Expr.renamed, ihLeft, ihRight]

theorem Test.renamed_id (t : Test) : t.renamed id = t := by
  obtain ⟨left, op, right⟩ := t
  cases left <;> cases right <;> rfl

theorem renamedBlock_id (body : List Stmt) : renamedBlock id body = body := by
  induction body using block_induction (P := fun stmt => stmt.renamed id = stmt) with
  | setExpr name value => rw [Stmt.renamed, value.renamed_id, id]
  | ifThen test thenBody ih => rw [Stmt.renamed, test.renamed_id, ih]
  | ifElse test thenBody elseBody ihThen ihElse => rw [Stmt.renamed, test.renamed_id, ihThen, ihElse]
  | whileDo test body ih => rw [Stmt.renamed, test.renamed_id, ih]
  | cons stmt rest ihStmt ihRest => rw [renamedBlock, ihStmt, ihRest]
  | _ => rfl

theorem Program.renamed_id (p : Program) : p.renamed id = p := by
  have hdeclaration : Declaration.renamed id = id := rfl
  rw [Program.renamed, hdeclaration, renamedBlock_id, List.map_id_fun, Option.map_id_fun]
  rfl

end KnightCode
