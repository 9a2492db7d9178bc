import KnightCode.Proofs.Grammar
import KnightCode.Proofs.Work
import KnightCode.Source.Reading

/-!
# Reading accepts the grammar

Each state of the reader stands for the tokens that led to it, and every token is added to them, so what is read is
written with the tokens that were there. Conversely, the tokens of a program of the grammar lead the reader to this
program.
-/

namespace KnightCode

namespace Reading

/-! ## What a state stands for -/

def waiting {Op : Type} (symbol : Op → Symbol) : Option (Op × Expr) → List Token
  | some (op, left) => left.tokens ++ [.symbol (symbol op)]
  | none => []

namespace Level

def sumSpelled (l : Level) : List Token :=
  waiting Arithmetic.symbol l.sumLeft ++ waiting Arithmetic.symbol l.productLeft

def spelled (l : Level) : List Token := waiting Comparison.symbol l.compareLeft ++ l.sumSpelled

/-- The operands that wait are such as the grammar allows at their places. -/
structure Proper (l : Level) : Prop where
  compareLeft : ∀ op e, l.compareLeft = some (op, e) → Rank.sum.Derives e
  sumLeft : ∀ op e, l.sumLeft = some (op, e) → op.isProduct = false ∧ Rank.sum.Derives e
  productLeft : ∀ op e, l.productLeft = some (op, e) → op.isProduct = true ∧ Rank.product.Derives e

theorem proper_empty : empty.Proper := ⟨nofun, nofun, nofun⟩

variable {l : Level} {e : Expr}

theorem tokens_closeProduct (l : Level) (e : Expr) :
    (l.closeProduct e).tokens = waiting Arithmetic.symbol l.productLeft ++ e.tokens := by
  unfold closeProduct waiting
  cases l.productLeft <;> simp [Expr.tokens]

theorem tokens_closeSum (l : Level) (e : Expr) : (l.closeSum e).tokens = l.sumSpelled ++ e.tokens := by
  unfold closeSum sumSpelled
  cases l.sumLeft <;> simp [Expr.tokens, tokens_closeProduct, waiting]

theorem tokens_close (l : Level) (e : Expr) : (l.close e).tokens = l.spelled ++ e.tokens := by
  unfold close spelled
  cases l.compareLeft <;> simp [Expr.tokens, tokens_closeSum, waiting]

theorem Proper.closeProduct (h : l.Proper) (he : Rank.primary.Derives e) : Rank.product.Derives (l.closeProduct e) := by
  unfold Level.closeProduct
  split
  · next op left hleft =>
    obtain ⟨hop, hderives⟩ := h.productLeft op left hleft
    exact .product hop hderives he
  · exact .ofPrimary he

theorem Proper.closeSum (h : l.Proper) (he : Rank.primary.Derives e) : Rank.sum.Derives (l.closeSum e) := by
  unfold Level.closeSum
  split
  · next op left hleft =>
    obtain ⟨hop, hderives⟩ := h.sumLeft op left hleft
    exact .sum hop hderives (h.closeProduct he)
  · exact .ofProduct (h.closeProduct he)

theorem Proper.close (h : l.Proper) (he : Rank.primary.Derives e) : Rank.comparison.Derives (l.close e) := by
  unfold Level.close
  split
  · next op left hleft => exact .comparison (h.compareLeft op left hleft) (h.closeSum he)
  · exact .ofSum (h.closeSum he)

end Level

/-- The levels outside of the open parentheses, with the parentheses. -/
def outerSpelled : List Level → List Token
  | [] => []
  | level :: outer => outerSpelled outer ++ level.spelled ++ [.symbol .openParen]

def Pending.spelled (e : Pending) : List Token :=
  [.keyword .SET, .name e.target, .symbol .assign] ++ outerSpelled e.outer ++ e.level.spelled

structure Pending.Proper (e : Pending) : Prop where
  level : e.level.Proper
  outer : ∀ l ∈ e.outer, l.Proper

def Tested.keyword : Tested → Keyword
  | .ifThen => .IF
  | .whileDo => .WHILE

def Opening.spelled : Opening → List Token
  | .thenOf test => [.keyword .IF] ++ test.tokens ++ [.keyword .THEN]
  | .elseOf test thenBody =>
    [.keyword .IF] ++ test.tokens ++ [.keyword .THEN] ++ blockTokens thenBody ++ [.keyword .ELSE]
  | .whileOf test => [.keyword .WHILE] ++ test.tokens ++ [.keyword .DO]

def Opening.Proper : Opening → Prop
  | .thenOf _ | .whileOf _ => True
  | .elseOf _ thenBody => blockCanonical thenBody

def nestsSpelled : List Nest → List Token
  | [] => []
  | nest :: outer => nestsSpelled outer ++ blockTokens nest.before.reverse ++ nest.opening.spelled

namespace Place

def spelled (p : Place) : List Token :=
  headerTokens p.name p.declarations ++ nestsSpelled p.nests ++ blockTokens p.done.reverse

structure Proper (p : Place) : Prop where
  opening : ∀ nest ∈ p.nests, nest.opening.Proper
  before : ∀ nest ∈ p.nests, blockCanonical nest.before
  done : blockCanonical p.done

variable {p : Place}

@[simp] theorem spelled_add (p : Place) (stmt : Stmt) : (p.add stmt).spelled = p.spelled ++ stmt.tokens := by
  simp [spelled, add, blockTokens_singleton]

theorem proper_begin (name : String) (declarations : Option (List Declaration)) :
    (Place.mk name declarations [] []).Proper :=
  ⟨by simp, by simp, trivial⟩

theorem Proper.add (h : p.Proper) (stmt : Stmt) (hstmt : stmt.Canonical) : (p.add stmt).Proper :=
  ⟨h.opening, h.before, hstmt, h.done⟩

theorem spelled_nested (name : String) (declarations : Option (List Declaration)) (opening : Opening)
    (before : List Stmt) (outer : List Nest) (done : List Stmt) :
    (Place.mk name declarations (⟨opening, before⟩ :: outer) done).spelled =
      (Place.mk name declarations outer before).spelled ++ opening.spelled ++ blockTokens done.reverse := by
  simp [spelled, nestsSpelled]

theorem Proper.of_nested {name : String} {declarations : Option (List Declaration)} {opening : Opening}
    {before : List Stmt} {outer : List Nest} {done : List Stmt}
    (h : (Place.mk name declarations (⟨opening, before⟩ :: outer) done).Proper) :
    (Place.mk name declarations outer before).Proper ∧ opening.Proper ∧ blockCanonical done := by
  obtain ⟨hopening, hbefore, hdone⟩ := h
  rw [List.forall_mem_cons] at hopening hbefore
  exact ⟨⟨hopening.2, hbefore.2, hbefore.1⟩, hopening.1, hdone⟩

@[simp] theorem spelled_openBlock (p : Place) (opening : Opening) :
    (p.openBlock opening).spelled = p.spelled ++ opening.spelled := by
  simp [openBlock, spelled_nested, blockTokens]

theorem Proper.openBlock (h : p.Proper) (opening : Opening) (hopening : opening.Proper) :
    (p.openBlock opening).Proper := by
  refine ⟨?_, ?_, trivial⟩
  · simpa [Place.openBlock] using ⟨hopening, h.opening⟩
  · simpa [Place.openBlock] using ⟨h.done, h.before⟩

end Place

namespace State

/-- The tokens that lead to a state. -/
def spelled : State → List Token
  | .start => []
  | .programName => [.keyword .PROGRAM]
  | .header name => [.keyword .PROGRAM, .name name]
  | .declarations name done =>
    [.keyword .PROGRAM, .name name, .keyword .DECLARE] ++ done.reverse.flatMap Declaration.tokens
  | .declarationName name done type =>
    [.keyword .PROGRAM, .name name, .keyword .DECLARE] ++ done.reverse.flatMap Declaration.tokens ++
      [.keyword type.keyword]
  | .statement p => p.spelled
  | .printArgument p => p.spelled ++ [.keyword .PRINT]
  | .readTarget p => p.spelled ++ [.keyword .READ]
  | .setTarget p => p.spelled ++ [.keyword .SET]
  | .setAssign p target => p.spelled ++ [.keyword .SET, .name target]
  | .setValue p target => p.spelled ++ [.keyword .SET, .name target, .symbol .assign]
  | .operand p e => p.spelled ++ e.spelled
  | .operator p e value => p.spelled ++ e.spelled ++ value.tokens
  | .testLeft p t => p.spelled ++ [.keyword t.keyword]
  | .testOperator p t left => p.spelled ++ [.keyword t.keyword, left.token]
  | .testRight p t left op => p.spelled ++ [.keyword t.keyword, left.token, .symbol op.symbol]
  | .testEnd p t test => p.spelled ++ .keyword t.keyword :: test.tokens
  | .finished program => program.tokens

def Proper : State → Prop
  | .start | .programName | .header _ | .declarations .. | .declarationName .. => True
  | .statement p | .printArgument p | .readTarget p | .setTarget p | .setAssign p _ | .setValue p _ | .testLeft p _
  | .testOperator p _ _ | .testRight p _ _ _ | .testEnd p _ _ => p.Proper
  | .operand p e => p.Proper ∧ e.Proper
  | .operator p e value => p.Proper ∧ e.Proper ∧ Rank.primary.Derives value
  | .finished program => program.Canonical

end State

/-! ## What a token adds -/

/-- The step from the tokens `before` takes the token `t` in. -/
def Takes (before : List Token) (t : Token) (s : State) : Prop := s.spelled = before ++ [t] ∧ s.Proper

theorem expect_eq_ok {wanted got : Token} {next s : State} (h : expect wanted got next = .ok s) :
    got = wanted ∧ s = next := by
  unfold expect at h
  split at h
  · next heq => cases h; exact ⟨heq, rfl⟩
  · cases h

theorem expectName_eq_ok {token : Token} {next : String → State} {s : State} (h : expectName token next = .ok s) :
    ∃ name, token = .name name ∧ s = next name := by
  unfold expectName at h
  split at h
  · next name => cases h; exact ⟨name, rfl, rfl⟩
  · cases h

theorem comparison?_eq_some {token : Token} {op : Comparison} :
    comparison? token = some op ↔ token = .symbol op.symbol := by
  constructor
  · intro h
    unfold comparison? at h
    split at h <;> cases h <;> rfl
  · rintro rfl
    cases op <;> rfl

theorem operand?_eq_some {token : Token} {o : Operand} : operand? token = some o ↔ token = o.token := by
  constructor
  · intro h
    unfold operand? at h
    split at h <;> cases h <;> rfl
  · rintro rfl
    cases o <;> rfl

@[simp] theorem comparison?_symbol (op : Comparison) : comparison? (.symbol op.symbol) = some op :=
  comparison?_eq_some.2 rfl

@[simp] theorem operand?_token (o : Operand) : operand? o.token = some o := operand?_eq_some.2 rfl

section Sound

variable {p : Place} {e : Pending} {value : Expr} {t : Token} {s : State}

theorem takes_add {before : List Token} (hp : p.Proper) (stmt : Stmt) (hstmt : stmt.Canonical)
    (h : p.spelled ++ stmt.tokens = before ++ [t]) : Takes before t (.statement (p.add stmt)) :=
  ⟨(p.spelled_add stmt).trans h, hp.add stmt hstmt⟩

theorem takes_openBlock {before : List Token} (hp : p.Proper) (opening : Opening) (hopening : opening.Proper)
    (h : p.spelled ++ opening.spelled = before ++ [t]) : Takes before t (.statement (p.openBlock opening)) :=
  ⟨(p.spelled_openBlock opening).trans h, hp.openBlock opening hopening⟩

theorem takes_stepStatement (hp : p.Proper) (h : stepStatement p t = .ok s) : Takes p.spelled t s := by
  obtain ⟨name, declarations, nests, done⟩ := p
  simp only [stepStatement] at h
  split at h
  · cases h
    exact ⟨by simp [State.spelled, Program.tokens, Place.spelled, nestsSpelled], blockCanonical_reverse.2 hp.done⟩
  · next test before outer =>
    cases h
    obtain ⟨hplace, -, hdone⟩ := hp.of_nested
    exact takes_add hplace (.ifThen test done.reverse) (blockCanonical_reverse.2 hdone)
      (by simp [Place.spelled_nested, Stmt.tokens, Opening.spelled])
  · next test before outer =>
    cases h
    obtain ⟨hplace, -, hdone⟩ := hp.of_nested
    exact takes_openBlock hplace (.elseOf test done.reverse) (blockCanonical_reverse.2 hdone)
      (by simp [Place.spelled_nested, Opening.spelled])
  · next test thenBody before outer =>
    cases h
    obtain ⟨hplace, hthen, hdone⟩ := hp.of_nested
    exact takes_add hplace (.ifElse test thenBody done.reverse) ⟨hthen, blockCanonical_reverse.2 hdone⟩
      (by simp [Place.spelled_nested, Stmt.tokens, Opening.spelled])
  · next test before outer =>
    cases h
    obtain ⟨hplace, -, hdone⟩ := hp.of_nested
    exact takes_add hplace (.whileDo test done.reverse) (blockCanonical_reverse.2 hdone)
      (by simp [Place.spelled_nested, Stmt.tokens, Opening.spelled])
  -- The keywords that start a statement add only themselves.
  all_goals cases h
  all_goals exact ⟨rfl, hp⟩

theorem takes_stepOperand (hp : p.Proper) (he : e.Proper) (h : stepOperand p e t = .ok s) :
    Takes (p.spelled ++ e.spelled) t s := by
  cases t with
  | number value => cases h; exact ⟨by simp [State.spelled, Expr.tokens], hp, he, .number value⟩
  | name name => cases h; exact ⟨by simp [State.spelled, Expr.tokens], hp, he, .name name⟩
  | symbol symbol =>
    cases symbol with
    | openParen =>
      cases h
      refine ⟨?_, hp, Level.proper_empty, ?_⟩
      · simp [State.spelled, Pending.spelled, outerSpelled, Level.spelled, Level.sumSpelled, Level.empty, waiting]
      · exact List.forall_mem_cons.2 ⟨he.level, he.outer⟩
    | _ => cases h
  | _ => cases h

theorem takes_stepEndLevel (hp : p.Proper) (he : e.Proper) (hvalue : Rank.primary.Derives value)
    (h : stepEndLevel p e value t = .ok s) : Takes (p.spelled ++ e.spelled ++ value.tokens) t s := by
  unfold stepEndLevel at h
  split at h
  · next houter =>
    have htakes := takes_stepStatement (hp.add (.setExpr e.target (e.level.close value)) (he.level.close hvalue)) h
    rw [Place.spelled_add, Stmt.tokens, Level.tokens_close] at htakes
    rwa [Pending.spelled, houter, outerSpelled, List.append_nil, List.append_assoc, List.append_assoc]
  · next level outer houter =>
    obtain ⟨rfl, rfl⟩ := expect_eq_ok h
    have hlevels := he.outer
    rw [houter] at hlevels
    refine ⟨?_, hp, ⟨hlevels _ (by simp), fun l hl => hlevels l (by simp [hl])⟩, .paren (he.level.close hvalue)⟩
    simp [State.spelled, Pending.spelled, houter, outerSpelled, Expr.tokens, Level.tokens_close]

theorem takes_stepOperator (hp : p.Proper) (he : e.Proper) (hvalue : Rank.primary.Derives value)
    (h : stepOperator p e value t = .ok s) : Takes (p.spelled ++ e.spelled ++ value.tokens) t s := by
  have hsum : ∀ op : Arithmetic, op.isProduct = false → Takes (p.spelled ++ e.spelled ++ value.tokens)
      (.symbol op.symbol)
      (.operand p { e with level := ⟨e.level.compareLeft, some (op, e.level.closeSum value), none⟩ }) := by
    intro op hop
    refine ⟨?_, hp, ⟨he.level.compareLeft, ?_, nofun⟩, he.outer⟩
    · simp [State.spelled, Pending.spelled, Level.spelled, Level.sumSpelled, waiting, Level.tokens_closeSum]
    · rintro _ _ ⟨⟩
      exact ⟨hop, he.level.closeSum hvalue⟩
  have hproduct : ∀ op : Arithmetic, op.isProduct = true → Takes (p.spelled ++ e.spelled ++ value.tokens)
      (.symbol op.symbol)
      (.operand p
        { e with level := ⟨e.level.compareLeft, e.level.sumLeft, some (op, e.level.closeProduct value)⟩ }) := by
    intro op hop
    refine ⟨?_, hp, ⟨he.level.compareLeft, he.level.sumLeft, ?_⟩, he.outer⟩
    · simp [State.spelled, Pending.spelled, Level.spelled, Level.sumSpelled, waiting, Level.tokens_closeProduct]
    · rintro _ _ ⟨⟩
      exact ⟨hop, he.level.closeProduct hvalue⟩
  unfold stepOperator at h
  simp only at h
  split at h
  · cases h; exact hsum .add rfl
  · cases h; exact hsum .sub rfl
  · cases h; exact hproduct .mul rfl
  · cases h; exact hproduct .div rfl
  · split at h
    · next op hop hnone =>
      cases h
      obtain rfl := comparison?_eq_some.1 hop
      refine ⟨?_, hp, ⟨?_, nofun, nofun⟩, he.outer⟩
      · simp [State.spelled, Pending.spelled, Level.spelled, Level.sumSpelled, waiting, hnone, Level.tokens_closeSum]
      · rintro _ _ ⟨⟩
        exact he.level.closeSum hvalue
    · exact takes_stepEndLevel hp he hvalue h

/-- Every token that is read is added to those that the state stands for. -/
theorem takes_step (h : s.Proper) {s' : State} (hstep : s.step t = .ok s') : Takes s.spelled t s' := by
  cases s with
  | start =>
    obtain ⟨rfl, rfl⟩ := expect_eq_ok hstep
    exact ⟨rfl, trivial⟩
  | programName =>
    obtain ⟨name, rfl, rfl⟩ := expectName_eq_ok hstep
    exact ⟨rfl, trivial⟩
  | header name =>
    simp only [State.step] at hstep
    split at hstep
    · next heq =>
      cases hstep
      exact ⟨by simp [State.spelled, heq], trivial⟩
    · obtain ⟨rfl, rfl⟩ := expect_eq_ok hstep
      exact ⟨by simp [State.spelled, Place.spelled, headerTokens, nestsSpelled, blockTokens], Place.proper_begin ..⟩
  | declarations name done =>
    simp only [State.step] at hstep
    split at hstep
    · cases hstep
      exact ⟨by simp [State.spelled, VarType.keyword], trivial⟩
    · cases hstep
      exact ⟨by simp [State.spelled, VarType.keyword], trivial⟩
    · obtain ⟨rfl, rfl⟩ := expect_eq_ok hstep
      exact ⟨by simp [State.spelled, Place.spelled, headerTokens, nestsSpelled, blockTokens], Place.proper_begin ..⟩
  | declarationName name done type =>
    obtain ⟨declared, rfl, rfl⟩ := expectName_eq_ok hstep
    exact ⟨by simp [State.spelled, Declaration.tokens], trivial⟩
  | statement p => exact takes_stepStatement h hstep
  | printArgument p =>
    simp only [State.step] at hstep
    split at hstep
    · next text =>
      cases hstep
      exact takes_add h (.printText text) trivial (by simp [State.spelled, Stmt.tokens])
    · next name =>
      cases hstep
      exact takes_add h (.printName name) trivial (by simp [State.spelled, Stmt.tokens])
    · cases hstep
  | readTarget p =>
    obtain ⟨name, rfl, rfl⟩ := expectName_eq_ok hstep
    exact takes_add h (.read name) trivial (by simp [State.spelled, Stmt.tokens])
  | setTarget p =>
    obtain ⟨name, rfl, rfl⟩ := expectName_eq_ok hstep
    exact ⟨by simp [State.spelled], h⟩
  | setAssign p target =>
    obtain ⟨rfl, rfl⟩ := expect_eq_ok hstep
    exact ⟨by simp [State.spelled], h⟩
  | setValue p target =>
    simp only [State.step] at hstep
    split at hstep
    · next text =>
      cases hstep
      exact takes_add h (.setText target text) trivial (by simp [State.spelled, Stmt.tokens])
    · -- Anything but a text begins an expression, of which nothing has been read yet.
      have htakes := takes_stepOperand h ⟨Level.proper_empty, by simp⟩ hstep
      simpa [State.spelled, Pending.spelled, outerSpelled, Level.spelled, Level.sumSpelled, Level.empty, waiting]
        using htakes
  | operand p e => exact takes_stepOperand h.1 h.2 hstep
  | operator p e value => exact takes_stepOperator h.1 h.2.1 h.2.2 hstep
  | testLeft p tested =>
    simp only [State.step] at hstep
    split at hstep
    · next left hleft =>
      cases hstep
      obtain rfl := operand?_eq_some.1 hleft
      exact ⟨by simp [State.spelled], h⟩
    · cases hstep
  | testOperator p tested left =>
    simp only [State.step] at hstep
    split at hstep
    · next op hop =>
      cases hstep
      obtain rfl := comparison?_eq_some.1 hop
      exact ⟨by simp [State.spelled], h⟩
    · cases hstep
  | testRight p tested left op =>
    simp only [State.step] at hstep
    split at hstep
    · next right hright =>
      cases hstep
      obtain rfl := operand?_eq_some.1 hright
      exact ⟨by simp [State.spelled, Test.tokens], h⟩
    · cases hstep
  | testEnd p tested test =>
    obtain ⟨rfl, rfl⟩ := expect_eq_ok hstep
    refine takes_openBlock h (tested.opening test) ?_ ?_
    · cases tested <;> trivial
    · cases tested <;> simp [State.spelled, Tested.opening, Opening.spelled, Tested.keyword, Tested.closing]
  | finished program => cases hstep

end Sound

/-! ## Runs -/

/-- The tokens lead from one state to the other. -/
def Steps (s : State) (tokens : List Token) (s' : State) : Prop := tokens.foldlM State.step s = .ok s'

namespace Steps

variable {s m s' : State} {t : Token} {first second tokens : List Token}

theorem nil (s : State) : Steps s [] s := rfl

theorem nil_iff : Steps s [] s' ↔ s = s' := by
  simp [Steps, pure, Except.pure]

theorem cons_iff : Steps s (t :: tokens) s' ↔ ∃ m, s.step t = .ok m ∧ Steps m tokens s' := by
  rw [Steps, List.foldlM_cons, except_bind_eq_ok]
  rfl

theorem cons (h : s.step t = .ok m) (hrest : Steps m tokens s') : Steps s (t :: tokens) s' := cons_iff.2 ⟨m, h, hrest⟩

theorem append (hfirst : Steps s first m) (hsecond : Steps m second s') : Steps s (first ++ second) s' := by
  rw [Steps, List.foldlM_append, except_bind_eq_ok]
  exact ⟨m, hfirst, hsecond⟩

theorem unique {s'' : State} (h : Steps s tokens s') (h' : Steps s tokens s'') : s' = s'' :=
  Except.ok.inj (h.symm.trans h')

/-- Tokens that lead somewhere are those that the last state stands for. -/
theorem sound (h : Steps s tokens s') (proper : s.Proper) : s'.spelled = s.spelled ++ tokens ∧ s'.Proper := by
  induction tokens generalizing s with
  | nil =>
    obtain rfl := nil_iff.1 h
    exact ⟨(List.append_nil _).symm, proper⟩
  | cons t tokens ih =>
    obtain ⟨m, hstep, hrest⟩ := cons_iff.1 h
    obtain ⟨hspelled, hm⟩ := takes_step proper hstep
    obtain ⟨hlast, hproper⟩ := ih hrest hm
    exact ⟨by rw [hlast, hspelled, List.append_assoc]; rfl, hproper⟩

end Steps

/-! ## The tokens of expressions -/

namespace Level

/-- The level without what an expression of this rank may leave in it. -/
def cleared (l : Level) : Rank → Level
  | .primary => l
  | .product => ⟨l.compareLeft, l.sumLeft, none⟩
  | .sum => ⟨l.compareLeft, none, none⟩
  | .comparison => empty

def closeAt (l : Level) (e : Expr) : Rank → Expr
  | .primary => e
  | .product => l.closeProduct e
  | .sum => l.closeSum e
  | .comparison => l.close e

end Level

theorem stepOperator_product {op : Arithmetic} (h : op.isProduct = true) (p : Place) (e : Pending) (value : Expr) :
    stepOperator p e value (.symbol op.symbol) = .ok (.operand p
      { e with level := ⟨e.level.compareLeft, e.level.sumLeft, some (op, e.level.closeProduct value)⟩ }) := by
  cases op with
  | mul | div => rfl
  | add | sub => cases h

theorem stepOperator_sum {op : Arithmetic} (h : op.isProduct = false) (p : Place) (e : Pending) (value : Expr) :
    stepOperator p e value (.symbol op.symbol) = .ok (.operand p
      { e with level := ⟨e.level.compareLeft, some (op, e.level.closeSum value), none⟩ }) := by
  cases op with
  | add | sub => rfl
  | mul | div => cases h

theorem stepOperator_comparison (op : Comparison) (p : Place) (e : Pending) (value : Expr)
    (h : e.level.compareLeft = none) :
    stepOperator p e value (.symbol op.symbol) = .ok (.operand p
      { e with level := ⟨some (op, e.level.closeSum value), none, none⟩ }) := by
  cases op <;> simp [stepOperator, Comparison.symbol, comparison?, h]

/-- The tokens of an expression lead from a place for an operand to the end of the expression, which is what its rank
makes of the last operand and those that wait. -/
def Reads (p : Place) (target : String) (rank : Rank) (e : Expr) : Prop :=
  ∀ outer level, level.cleared rank = level → ∃ level' value,
    Steps (.operand p ⟨target, level, outer⟩) e.tokens (.operator p ⟨target, level', outer⟩ value) ∧
      level'.cleared rank = level ∧ level'.closeAt value rank = e

section Complete

variable {p : Place} {target : String} {left right e : Expr}

theorem reads_paren (h : Reads p target .comparison e) : Reads p target .primary (.paren e) := by
  intro outer level _
  obtain ⟨level', value, hsteps, -, hclose⟩ := h (level :: outer) .empty rfl
  refine ⟨level, .paren e, .cons rfl (hsteps.append (.cons ?_ (.nil _))), rfl, rfl⟩
  rw [← hclose]
  rfl

theorem reads_ofPrimary (h : Reads p target .primary e) : Reads p target .product e := by
  intro outer level hlevel
  obtain ⟨level', value, hsteps, rfl, rfl⟩ := h outer level rfl
  refine ⟨level', value, hsteps, hlevel, ?_⟩
  have hnone : level'.productLeft = none := (congrArg Level.productLeft hlevel).symm
  simp [Level.closeAt, Level.closeProduct, hnone]

theorem reads_product {op : Arithmetic} (hop : op.isProduct = true) (hleft : Reads p target .product left)
    (hright : Reads p target .primary right) : Reads p target .product (.arithmetic op left right) := by
  intro outer level hlevel
  obtain ⟨mid, value, hsteps, rfl, rfl⟩ := hleft outer level hlevel
  obtain ⟨last, value', hsteps', rfl, rfl⟩ :=
    hright outer ⟨mid.compareLeft, mid.sumLeft, some (op, mid.closeProduct value)⟩ rfl
  exact ⟨_, value', hsteps.append (.cons (stepOperator_product hop p _ value) hsteps'), rfl, rfl⟩

theorem reads_ofProduct (h : Reads p target .product e) : Reads p target .sum e := by
  intro outer level hlevel
  obtain ⟨⟨compareLeft, sumLeft, productLeft⟩, value, hsteps, rfl, rfl⟩ := h outer level (by rw [← hlevel]; rfl)
  obtain rfl : sumLeft = none := (congrArg Level.sumLeft hlevel).symm
  exact ⟨_, value, hsteps, rfl, rfl⟩

theorem reads_sum {op : Arithmetic} (hop : op.isProduct = false) (hleft : Reads p target .sum left)
    (hright : Reads p target .product right) : Reads p target .sum (.arithmetic op left right) := by
  intro outer level hlevel
  obtain ⟨mid, value, hsteps, rfl, rfl⟩ := hleft outer level hlevel
  obtain ⟨⟨compareLeft, sumLeft, productLeft⟩, value', hsteps', hlast, rfl⟩ :=
    hright outer ⟨mid.compareLeft, some (op, mid.closeSum value), none⟩ rfl
  simp only [Level.cleared, Level.mk.injEq, and_true] at hlast
  obtain ⟨rfl, rfl⟩ := hlast
  exact ⟨_, value', hsteps.append (.cons (stepOperator_sum hop p _ value) hsteps'), rfl, rfl⟩

theorem reads_ofSum (h : Reads p target .sum e) : Reads p target .comparison e := by
  intro outer level hlevel
  obtain rfl : Level.empty = level := hlevel
  obtain ⟨⟨compareLeft, sumLeft, productLeft⟩, value, hsteps, hlast, rfl⟩ := h outer .empty rfl
  obtain rfl : compareLeft = none := congrArg Level.compareLeft hlast
  exact ⟨_, value, hsteps, rfl, rfl⟩

theorem reads_comparison (op : Comparison) (hleft : Reads p target .sum left) (hright : Reads p target .sum right) :
    Reads p target .comparison (.compare op left right) := by
  intro outer level hlevel
  obtain rfl : Level.empty = level := hlevel
  obtain ⟨mid, value, hsteps, hmid, rfl⟩ := hleft outer .empty rfl
  have hnone : mid.compareLeft = none := congrArg Level.compareLeft hmid
  obtain ⟨⟨compareLeft, sumLeft, productLeft⟩, value', hsteps', hlast, rfl⟩ :=
    hright outer ⟨some (op, mid.closeSum value), none, none⟩ rfl
  obtain rfl : compareLeft = some (op, mid.closeSum value) := congrArg Level.compareLeft hlast
  exact ⟨_, value', hsteps.append (.cons (stepOperator_comparison op p _ value hnone) hsteps'), rfl, rfl⟩

theorem reads_of_derives {rank : Rank} (h : rank.Derives e) (p : Place) (target : String) : Reads p target rank e := by
  induction h with
  | number value => exact fun outer level _ => ⟨level, .number value, .cons rfl (.nil _), rfl, rfl⟩
  | name x => exact fun outer level _ => ⟨level, .name x, .cons rfl (.nil _), rfl, rfl⟩
  | paren _ ih => exact reads_paren ih
  | ofPrimary _ ih => exact reads_ofPrimary ih
  | product hop _ _ ihLeft ihRight => exact reads_product hop ihLeft ihRight
  | ofProduct _ ih => exact reads_ofProduct ih
  | sum hop _ _ ihLeft ihRight => exact reads_sum hop ihLeft ihRight
  | ofSum _ ih => exact reads_ofSum ih
  | comparison _ _ ihLeft ihRight => exact reads_comparison _ ihLeft ihRight

/-! ## The tokens of statements -/

/-- A state at which a statement may start or a block end. After the value of a `SET` a keyword ends the value too. -/
def Ready (p : Place) (s : State) : Prop := ∀ k, s.step (.keyword k) = stepStatement p (.keyword k)

def Place.addAll (p : Place) (body : List Stmt) : Place := { p with done := body.reverse ++ p.done }

theorem ready_statement (p : Place) : Ready p (.statement p) := fun _ => rfl

theorem ready_operator (p : Place) (target : String) (level : Level) (value : Expr) :
    Ready (p.add (.setExpr target (level.close value))) (.operator p ⟨target, level, []⟩ value) := fun _ => rfl

def Leads (p : Place) (tokens : List Token) (q : Place) : Prop :=
  ∀ s, Ready p s → ∃ s', Steps s tokens s' ∧ Ready q s'

namespace Leads

variable {q r : Place} {first second tokens : List Token}

theorem refl (p : Place) : Leads p [] p := fun s hs => ⟨s, .nil s, hs⟩

theorem append (hfirst : Leads p first q) (hsecond : Leads q second r) : Leads p (first ++ second) r := by
  intro s hs
  obtain ⟨m, hm, hready⟩ := hfirst s hs
  obtain ⟨s', hs', hready'⟩ := hsecond m hready
  exact ⟨s', hm.append hs', hready'⟩

theorem of_keyword {k : Keyword} {m : State} (hk : stepStatement p (.keyword k) = .ok m)
    (hrest : Steps m tokens (.statement q)) : Leads p (.keyword k :: tokens) q :=
  fun _ hs => ⟨.statement q, .cons ((hs k).trans hk) hrest, ready_statement q⟩

end Leads

theorem stepStatement_set (p : Place) : stepStatement p (.keyword .SET) = .ok (.setTarget p) := by
  simp [stepStatement]

theorem stepStatement_print (p : Place) : stepStatement p (.keyword .PRINT) = .ok (.printArgument p) := by
  simp [stepStatement]

theorem stepStatement_read (p : Place) : stepStatement p (.keyword .READ) = .ok (.readTarget p) := by
  simp [stepStatement]

theorem stepStatement_test (p : Place) (t : Tested) : stepStatement p (.keyword t.keyword) = .ok (.testLeft p t) := by
  cases t <;> simp [stepStatement, Tested.keyword]

/-- An expression that stands as a value: its first token is not a text, which would be the value itself. -/
theorem Steps.of_operand {tokens : List Token} {e : Pending} {value : Expr}
    (h : Steps (.operand p ⟨target, .empty, []⟩) tokens (.operator p e value)) :
    Steps (.setValue p target) tokens (.operator p e value) := by
  cases tokens with
  | nil => cases Steps.nil_iff.1 h
  | cons t tokens =>
    obtain ⟨m, hstep, hrest⟩ := Steps.cons_iff.1 h
    refine .cons ?_ hrest
    cases t with
    | text value => cases hstep
    | _ => exact hstep

theorem leads_setExpr (target : String) {value : Expr} (h : Rank.comparison.Derives value) (p : Place) :
    Leads p (Stmt.setExpr target value).tokens (p.add (.setExpr target value)) := by
  intro s hs
  obtain ⟨level, last, hsteps, -, rfl⟩ := reads_of_derives h p target [] .empty rfl
  have hset := (hs .SET).trans (stepStatement_set p)
  exact ⟨_, .cons hset (.cons rfl (.cons rfl hsteps.of_operand)), ready_operator p target level last⟩

theorem leads_test (p : Place) (t : Tested) (test : Test) :
    Leads p ([Token.keyword t.keyword] ++ test.tokens ++ [Token.keyword t.closing]) (p.openBlock (t.opening test)) := by
  refine .of_keyword (stepStatement_test p t) ?_
  refine .cons (m := .testOperator p t test.left) ?_ (.cons (m := .testRight p t test.left test.op) ?_
    (.cons (m := .testEnd p t test) ?_ (.cons ?_ (.nil _))))
  · simp [State.step]
  · simp [State.step]
  · simp [State.step]
  · simp [State.step, expect]

theorem leads_block (body : List Stmt) : blockCanonical body → ∀ p, Leads p (blockTokens body) (p.addAll body) := by
  -- For every place: the statements of an inner block are added in a place of their own.
  induction body using block_induction (P := fun stmt => stmt.Canonical → ∀ p, Leads p stmt.tokens (p.add stmt)) with
  | printText text _ p => exact .of_keyword (stepStatement_print p) (.cons rfl (.nil _))
  | printName name _ p => exact .of_keyword (stepStatement_print p) (.cons rfl (.nil _))
  | read name _ p => exact .of_keyword (stepStatement_read p) (.cons rfl (.nil _))
  | setText name text _ p =>
    exact .of_keyword (stepStatement_set p) (.cons rfl (.cons rfl (.cons rfl (.nil _))))
  | setExpr name value h p => exact leads_setExpr name h p
  | ifThen test thenBody ih h p =>
    refine ((leads_test p .ifThen test).append (ih h _)).append ?_
    refine .of_keyword (m := .statement (p.add (.ifThen test thenBody))) ?_ (.nil _)
    simp [stepStatement, Place.addAll, Place.openBlock, Tested.opening, Place.add]
  | ifElse test thenBody elseBody ihThen ihElse h p =>
    have helse : Leads ((p.openBlock (.thenOf test)).addAll thenBody) [.keyword .ELSE]
        (p.openBlock (.elseOf test thenBody)) := by
      refine .of_keyword (m := .statement (p.openBlock (.elseOf test thenBody))) ?_ (.nil _)
      simp [stepStatement, Place.addAll, Place.openBlock]
    refine ((((leads_test p .ifThen test).append (ihThen h.1 _)).append helse).append (ihElse h.2 _)).append ?_
    refine .of_keyword (m := .statement (p.add (.ifElse test thenBody elseBody))) ?_ (.nil _)
    simp [stepStatement, Place.addAll, Place.openBlock, Place.add]
  | whileDo test body ih h p =>
    refine ((leads_test p .whileDo test).append (ih h _)).append ?_
    refine .of_keyword (m := .statement (p.add (.whileDo test body))) ?_ (.nil _)
    simp [stepStatement, Place.addAll, Place.openBlock, Tested.opening, Place.add]
  | nil => exact fun _ p => .refl p
  | cons stmt rest ihStmt ihRest =>
    intro h p
    have hrest := (ihStmt h.1 p).append (ihRest h.2 (p.add stmt))
    simpa [blockTokens, Place.addAll, Place.add] using hrest

/-! ## The tokens of programs -/

theorem steps_declarations (name : String) (declared done : List Declaration) :
    Steps (.declarations name done) (declared.flatMap Declaration.tokens)
      (.declarations name (declared.reverse ++ done)) := by
  induction declared generalizing done with
  | nil => exact .nil _
  | cons d declared ih =>
    have htype : (State.declarations name done).step (.keyword d.type.keyword) =
        .ok (.declarationName name done d.type) := by
      cases d.type <;> rfl
    have hrest := ih (d :: done)
    rw [List.reverse_cons, List.append_assoc]
    exact .cons htype (.cons rfl hrest)

theorem steps_header (name : String) (declarations : Option (List Declaration)) :
    Steps .start (headerTokens name declarations) (.statement ⟨name, declarations, [], []⟩) := by
  refine .cons rfl (.cons rfl ?_)
  cases declarations with
  | none => exact .cons rfl (.nil _)
  | some declared =>
    refine .cons rfl ((steps_declarations name declared []).append (.cons ?_ (.nil _)))
    simp [State.step, expect]

theorem steps_program {program : Program} (h : program.Canonical) :
    Steps .start program.tokens (.finished program) := by
  obtain ⟨s, hsteps, hready⟩ := leads_block program.body h ⟨program.name, program.declarations, [], []⟩ _
    (ready_statement _)
  refine ((steps_header program.name program.declarations).append hsteps).append (.cons ?_ (.nil _))
  rw [hready .END]
  simp [stepStatement, Place.addAll]

theorem steps_finished_iff {tokens : List Token} {program : Program} :
    Steps .start tokens (.finished program) ↔ program.Canonical ∧ tokens = program.tokens := by
  constructor
  · intro h
    obtain ⟨hspelled, hproper⟩ := h.sound trivial
    exact ⟨hproper, hspelled.symm⟩
  · rintro ⟨hcanonical, rfl⟩
    exact steps_program hcanonical

end Complete

/-! ## The end of the input -/

theorem step_endOfInput (s : State) : ∃ fault, s.step .endOfInput = .error fault := by
  have hstatement : ∀ p, stepStatement p .endOfInput = .error .unexpectedEnd := fun p => by simp [stepStatement]
  cases s with
  | statement p => exact ⟨_, hstatement p⟩
  | operator p e value =>
    obtain ⟨target, level, outer⟩ := e
    cases outer with
    | nil => exact ⟨_, hstatement _⟩
    | cons l outer => exact ⟨_, rfl⟩
  | _ => exact ⟨_, rfl⟩

theorem run_end (s : State) (position : Position) :
    (∃ program, s = .finished program ∧ run s [⟨.endOfInput, position⟩] = .program program) ∨
      (∀ program, s ≠ .finished program) ∧ ∃ error, run s [⟨.endOfInput, position⟩] = .fault error := by
  obtain ⟨fault, hfault⟩ := step_endOfInput s
  cases s with
  | finished program => exact .inl ⟨program, rfl, rfl⟩
  | _ => exact .inr ⟨nofun, ⟨position, fault⟩, by simp only [run, hfault]⟩

theorem run_cons (s : State) {l : Located} (h : l.token ≠ .endOfInput) (rest : List Located) :
    run s (l :: rest) =
      match s.step l.token with
      | .ok s => run s rest
      | .error fault => .fault ⟨l.position, fault⟩ := by
  rw [run.eq_def]
  dsimp only
  split
  · next hlast => exact absurd hlast h
  · rfl

theorem run_eq {located : List Located} {tokens : List Token} (s : State)
    (hlocated : located.map (·.token) = tokens ++ [Token.endOfInput]) (hinner : .endOfInput ∉ tokens) :
    (∃ program, Steps s tokens (.finished program) ∧ run s located = .program program) ∨
      (∀ program, ¬ Steps s tokens (.finished program)) ∧ ∃ error, run s located = .fault error := by
  -- On the tokens, from any state; `run` and `Steps` take the same ones.
  induction tokens generalizing s located with
  | nil =>
    obtain ⟨⟨_, position⟩, rfl, rfl⟩ := List.map_eq_singleton_iff.1 hlocated
    simpa only [Steps.nil_iff] using run_end s position
  | cons t tokens ih =>
    obtain ⟨l, rest, rfl, rfl, hrest⟩ := List.map_eq_cons_iff.1 hlocated
    rw [List.mem_cons, not_or] at hinner
    rw [run_cons s (Ne.symm hinner.1)]
    simp only [Steps.cons_iff]
    cases hstep : s.step l.token with
    | error fault => exact .inr ⟨by simp, _, rfl⟩
    | ok m => simpa using ih m hrest hinner.2

end Reading

open Reading in
/-- Tokens up to the end of the input are read as a program exactly if the grammar gives this program and the tokens are
those that it is written with. -/
theorem Program.ofTokens_eq_ok_iff (located : List Located)
    (hlast : (located.map (·.token)).getLast? = some .endOfInput)
    (hinner : .endOfInput ∉ (located.map (·.token)).dropLast) (program : Program) :
    Program.ofTokens located = .ok program ↔
      program.Canonical ∧ located.map (·.token) = program.tokens ++ [.endOfInput] := by
  obtain ⟨tokens, htokens⟩ := List.getLast?_eq_some_iff.1 hlast
  rw [htokens, List.dropLast_concat] at hinner
  rw [htokens, List.append_left_inj, ← steps_finished_iff]
  unfold Program.ofTokens
  rcases run_eq .start htokens hinner with ⟨read, hsteps, hrun⟩ | ⟨hnone, error, hrun⟩
  · simp only [hrun, Except.ok.injEq]
    constructor
    · rintro rfl
      exact hsteps
    · intro h
      exact State.finished.inj (hsteps.unique h)
  · simp only [hrun]
    exact ⟨nofun, fun h => absurd h (hnone program)⟩

/-- A program in which every operator stands beside one of another rank. -/
def ranks : Program :=
  ⟨"Ranks", some [⟨.integer, "x"⟩],
    [.setExpr "x" (.compare .less
        (.arithmetic .sub (.arithmetic .sub (.number 9) (.arithmetic .mul (.number 2) (.name "x"))) (.number 1))
        (.arithmetic .div (.paren (.compare .equal (.name "x") (.number 3))) (.name "x"))),
      .ifElse ⟨.name "x", .greater, .number 0⟩ [.printName "x"] []]⟩

theorem Program.ofTokens_eq_ok_iff_ranks : ranks.Canonical ∧
    Program.ofTokens ((ranks.tokens ++ [Token.endOfInput]).map (⟨·, ⟨1, 1⟩⟩)) = .ok ranks := by
  have hsub : Arithmetic.sub.isProduct = false := rfl
  have hmul : Arithmetic.mul.isProduct = true := rfl
  have hdiv : Arithmetic.div.isProduct = true := rfl
  have hnumber : ∀ n, Rank.product.Derives (.number n) := fun n => .ofPrimary (.number n)
  have hleft := Rank.Derives.sum hsub (.sum hsub (.ofProduct (hnumber 9)) (.product hmul (hnumber 2) (.name "x")))
    (hnumber 1)
  have hequal : Rank.comparison.Derives (.compare .equal (.name "x") (.number 3)) :=
    .comparison (.ofProduct (.ofPrimary (.name "x"))) (.ofProduct (hnumber 3))
  have hright := Rank.Derives.product hdiv (.ofPrimary (.paren hequal)) (.name "x")
  have hcanonical : ranks.Canonical := ⟨.comparison hleft (.ofProduct hright), ⟨⟨trivial, trivial⟩, trivial⟩, trivial⟩
  have hmap : ((ranks.tokens ++ [Token.endOfInput]).map (⟨·, ⟨1, 1⟩⟩)).map Located.token =
      ranks.tokens ++ [Token.endOfInput] := by
    simp [Function.comp_def]
  refine ⟨hcanonical, (ofTokens_eq_ok_iff _ ?_ ?_ _).2 ⟨hcanonical, hmap⟩⟩
  · rw [hmap, List.getLast?_concat]
  · rw [hmap, List.dropLast_concat]
    decide

end KnightCode
