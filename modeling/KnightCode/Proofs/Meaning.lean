import KnightCode.Compile.Scope
import KnightCode.Proofs.Behaviour
import KnightCode.Proofs.Typing

/-!
# What programs mean

A program runs statement by statement on a store of variables. Integers have 32 bits: a result that does not fit is
reduced to the number that does and differs from it by a multiple of 2³², and a quotient is cut off at the decimal
point. What is done about ill-typed statements is left open by `Outcome.wrong`; `Sound.not_wrong` says that a well-typed
program never meets one.
-/

namespace KnightCode

/-- What the Java library does with texts and numbers. -/
structure JavaText where
  /-- Leaves out the blanks at both ends. -/
  trim : String → String
  /-- The number that a text spells. -/
  parse : String → Option Int32
  /-- How a number is printed. -/
  decimal : Int32 → String

def Value.type : Value → VarType
  | .integer _ => .integer
  | .text _ => .text

@[simp] theorem VarType.type_default (t : VarType) : t.default.type = t := by cases t <;> rfl

namespace JavaText

def spell (java : JavaText) : Value → String
  | .integer n => java.decimal n
  | .text s => s

/-- The value that a line has for a variable. An integer may have blanks around it. -/
def valueOf (java : JavaText) (line : String) : VarType → Option Value
  | .integer => (java.parse (java.trim line)).map .integer
  | .text => some (.text line)

theorem type_of_valueOf {java : JavaText} {line : String} {t : VarType} {v : Value}
    (h : java.valueOf line t = some v) : v.type = t := by
  cases t with
  | integer =>
    obtain ⟨n, -, rfl⟩ := Option.map_eq_some_iff.1 h
    rfl
  | text =>
    cases h
    rfl

end JavaText

/-! ## Expressions -/

/-- The exact result; there is none if one divides by zero. -/
def Arithmetic.exact? : Arithmetic → Int → Int → Option Int
  | .add, a, b => some (a + b)
  | .sub, a, b => some (a - b)
  | .mul, a, b => some (a * b)
  | .div, a, b => if b = 0 then none else some (a.tdiv b)

/-- The result as far as 32 bits hold it. -/
def Arithmetic.value (op : Arithmetic) (a b : Int32) : Except Outcome Int32 :=
  match op.exact? a.toInt b.toInt with
  | some n => .ok (Int32.ofInt n)
  | none => .error .divisionByZero

def Comparison.holds : Comparison → Int → Int → Bool
  | .greater, a, b => a > b
  | .less, a, b => a < b
  | .equal, a, b => a = b
  | .different, a, b => a ≠ b

abbrev Store := String → Option Value

def Value.integer? : Value → Except Outcome Int32
  | .integer n => .ok n
  | .text _ => .error .wrong

def Store.value (store : Store) (name : String) : Except Outcome Value :=
  match store name with
  | some v => .ok v
  | none => .error .wrong

def integers (left right : Except Outcome Value) : Except Outcome (Int32 × Int32) := do
  let a ← (← left).integer?
  let b ← (← right).integer?
  return (a, b)

/-- The value of an expression. A comparison is worth one if it holds and zero if not. -/
def Expr.value (store : Store) : Expr → Except Outcome Value
  | .number n => .ok (.integer n)
  | .name x => store.value x
  | .paren inner => inner.value store
  | .arithmetic op left right => do
    let (a, b) ← integers (left.value store) (right.value store)
    return .integer (← op.value a b)
  | .compare op left right => do
    let (a, b) ← integers (left.value store) (right.value store)
    return .integer (if op.holds a.toInt b.toInt then 1 else 0)

def Operand.value (store : Store) : Operand → Except Outcome Int32
  | .number n => .ok n
  | .name x => do (← store.value x).integer?

def Test.holds (store : Store) (t : Test) : Except Outcome Bool := do
  let a ← t.left.value store
  let b ← t.right.value store
  return t.op.holds a.toInt b.toInt

/-! ## Statements -/

/-- A program on its way: the statements that are left, the variables, and the lines that can still be read. -/
structure Situation where
  todo : List Stmt
  store : Store
  input : List String

namespace Situation

/-- A variable takes values of its own type. -/
def assign (s : Situation) (types : Typing) (name : String) (v : Value) : Progress Situation :=
  if types name = some v.type then .go { s with store := fun x => if x = name then some v else s.store x } []
  else .stop .wrong

def choose (s : Situation) (test : Test) (yes no : List Stmt) : Progress Situation :=
  match test.holds s.store with
  | .ok true => .go { s with todo := yes ++ s.todo } []
  | .ok false => .go { s with todo := no ++ s.todo } []
  | .error outcome => .stop outcome

def readLine (s : Situation) (java : JavaText) (types : Typing) (name : String) : Progress Situation :=
  match types name, s.input with
  | none, _ => .stop .wrong
  | some _, [] => .stop .badInput
  | some t, line :: input =>
    match java.valueOf line t with
    | some v => { s with input }.assign types name v
    | none => .stop .badInput

def execute (s : Situation) (java : JavaText) (types : Typing) : Stmt → Progress Situation
  | .printText text => .go s [text]
  | .printName name =>
    match s.store.value name with
    | .ok v => .go s [java.spell v]
    | .error outcome => .stop outcome
  | .read name => s.readLine java types name
  | .setText name text => s.assign types name (.text text)
  | .setExpr name e =>
    match e.value s.store with
    | .ok v => s.assign types name v
    | .error outcome => .stop outcome
  | .ifThen test thenBody => s.choose test thenBody []
  | .ifElse test thenBody elseBody => s.choose test thenBody elseBody
  | .whileDo test body => s.choose test (body ++ [.whileDo test body]) []

def step (java : JavaText) (types : Typing) : Stepping Situation := fun s =>
  match s.todo with
  | [] => .stop .finished
  | stmt :: rest => { s with todo := rest }.execute java types stmt

end Situation

/-- Every declared variable starts with the value that its type gives it. -/
def Program.start (p : Program) (input : List String) : Situation :=
  ⟨p.body, fun name => (p.typing name).map VarType.default, input⟩

def Program.step (p : Program) (java : JavaText) : Stepping Situation := Situation.step java p.typing

/-! ## Well-typed programs -/

section Typed

variable {types : Typing} {store : Store}

def Store.Typed (types : Typing) (store : Store) : Prop := ∀ x, (store x).map Value.type = types x

theorem Store.Typed.value {x : String} {t : VarType} (h : store.Typed types) (hx : types x = some t) :
    ∃ v, store.value x = .ok v ∧ store x = some v ∧ v.type = t := by
  obtain ⟨v, hv, ht⟩ := Option.map_eq_some_iff.1 ((h x).trans hx)
  exact ⟨v, by simp [Store.value, hv], hv, ht⟩

theorem Value.integer?_of_type {v : Value} (h : v.type = .integer) : ∃ n, v = .integer n ∧ v.integer? = .ok n := by
  cases v with
  | integer n => exact ⟨n, rfl, rfl⟩
  | text s => cases h

theorem Arithmetic.value_cases (op : Arithmetic) (a b : Int32) :
    (∃ n, op.value a b = .ok n) ∨ op.value a b = .error .divisionByZero := by
  unfold Arithmetic.value
  split
  · exact .inl ⟨_, rfl⟩
  · exact .inr rfl

theorem integers_cases {left right : Except Outcome Value}
    (hl : (∃ n, left = .ok (.integer n)) ∨ left = .error .divisionByZero)
    (hr : (∃ n, right = .ok (.integer n)) ∨ right = .error .divisionByZero) :
    (∃ a b, integers left right = .ok (a, b)) ∨ integers left right = .error .divisionByZero := by
  obtain ⟨a, rfl⟩ | rfl := hl
  · obtain ⟨b, rfl⟩ | rfl := hr
    · exact .inl ⟨a, b, rfl⟩
    · exact .inr rfl
  · exact .inr rfl

theorem Expr.value_integer (h : store.Typed types) (e : Expr) (he : e.isInteger types = true) :
    (∃ n, e.value store = .ok (.integer n)) ∨ e.value store = .error .divisionByZero := by
  induction e with
  | number n => exact .inl ⟨n, rfl⟩
  | name x =>
    obtain ⟨v, hv, -, ht⟩ := h.value (x := x) (by simpa [Expr.isInteger] using he)
    obtain ⟨n, rfl, -⟩ := Value.integer?_of_type ht
    exact .inl ⟨n, hv⟩
  | paren inner ih => exact ih he
  | arithmetic op left right ihl ihr =>
    simp only [Expr.isInteger, Bool.and_eq_true] at he
    rw [Expr.value]
    obtain ⟨a, b, hab⟩ | hab := integers_cases (ihl he.1) (ihr he.2)
    · rw [hab]
      obtain ⟨n, hn⟩ | hn := op.value_cases a b
      · exact .inl ⟨n, by simp [bind, Except.bind, hn, pure, Except.pure]⟩
      · exact .inr (by simp [bind, Except.bind, hn])
    · rw [hab]
      exact .inr rfl
  | compare op left right ihl ihr =>
    simp only [Expr.isInteger, Bool.and_eq_true] at he
    rw [Expr.value]
    obtain ⟨a, b, hab⟩ | hab := integers_cases (ihl he.1) (ihr he.2)
    · rw [hab]
      exact .inl ⟨_, rfl⟩
    · rw [hab]
      exact .inr rfl

theorem Expr.value_text (h : store.Typed types) (e : Expr) (he : e.isText types = true) :
    ∃ s, e.value store = .ok (.text s) := by
  induction e with
  | name x =>
    obtain ⟨v, hv, -, ht⟩ := h.value (x := x) (by simpa [Expr.isText] using he)
    cases v with
    | integer n => cases ht
    | text s => exact ⟨s, hv⟩
  | paren inner ih => exact ih he
  | _ => cases he

theorem Expr.value_cases (h : store.Typed types) (e : Expr) {t : VarType} (he : e.hasType types t = true) :
    (∃ v, e.value store = .ok v ∧ v.type = t) ∨ e.value store = .error .divisionByZero := by
  cases t with
  | integer =>
    obtain ⟨n, hn⟩ | hn := e.value_integer h he
    · exact .inl ⟨_, hn, rfl⟩
    · exact .inr hn
  | text =>
    obtain ⟨s, hs⟩ := e.value_text h he
    exact .inl ⟨_, hs, rfl⟩

theorem Operand.value_integer (h : store.Typed types) (o : Operand) (ho : o.isInteger types = true) :
    ∃ n, o.value store = .ok n := by
  cases o with
  | number n => exact ⟨n, rfl⟩
  | name x =>
    obtain ⟨v, hv, -, ht⟩ := h.value (x := x) (by simpa [Operand.isInteger] using ho)
    obtain ⟨n, rfl, -⟩ := Value.integer?_of_type ht
    exact ⟨n, by rw [Operand.value, hv]; rfl⟩

theorem Test.holds_cases (h : store.Typed types) (t : Test) (ht : t.wellTyped types = true) :
    ∃ a b, t.left.value store = .ok a ∧ t.right.value store = .ok b ∧
      t.holds store = .ok (t.op.holds a.toInt b.toInt) := by
  simp only [Test.wellTyped, Bool.and_eq_true] at ht
  obtain ⟨a, ha⟩ := t.left.value_integer h ht.1
  obtain ⟨b, hb⟩ := t.right.value_integer h ht.2
  exact ⟨a, b, ha, hb, by rw [Test.holds, ha, hb]; rfl⟩

/-- The statements that are left are well typed, and so are the variables. -/
structure Situation.Sound (types : Typing) (s : Situation) : Prop where
  todo : blockWellTyped types s.todo = true
  store : s.store.Typed types

/-- A step that leads to a sound situation, or ends the run in a way that has a meaning. -/
def Progress.Meaningful (types : Typing) : Progress Situation → Prop
  | .go s _ => s.Sound types
  | .stop outcome => outcome ≠ .wrong

theorem blockWellTyped_append (first second : List Stmt) :
    blockWellTyped types (first ++ second) = (blockWellTyped types first && blockWellTyped types second) := by
  induction first with
  | nil => simp [blockWellTyped]
  | cons stmt first ih => simp [blockWellTyped, ih, Bool.and_assoc]

namespace Situation.Sound

variable {s : Situation} (h : s.Sound types)
include h

theorem assign {name : String} {v : Value} (hv : types name = some v.type) :
    (s.assign types name v).Meaningful types := by
  rw [Situation.assign, if_pos hv]
  refine ⟨h.todo, fun x => ?_⟩
  by_cases hx : x = name
  · subst hx
    simp [hv]
  · simp [hx, h.store x]

theorem choose {test : Test} {yes no : List Stmt} (htest : test.wellTyped types = true)
    (hyes : blockWellTyped types yes = true) (hno : blockWellTyped types no = true) :
    (s.choose test yes no).Meaningful types := by
  obtain ⟨a, b, -, -, hholds⟩ := test.holds_cases h.store htest
  rw [Situation.choose, hholds]
  cases test.op.holds a.toInt b.toInt with
  | true => exact ⟨by rw [blockWellTyped_append, hyes, h.todo]; rfl, h.store⟩
  | false => exact ⟨by rw [blockWellTyped_append, hno, h.todo]; rfl, h.store⟩

theorem readLine (java : JavaText) {name : String} (hname : (types name).isSome = true) :
    (s.readLine java types name).Meaningful types := by
  obtain ⟨t, ht⟩ := Option.isSome_iff_exists.1 hname
  rw [Situation.readLine, ht]
  cases hinput : s.input with
  | nil => exact nofun
  | cons line input =>
    simp only
    cases hv : java.valueOf line t with
    | none => exact nofun
    | some v =>
      have hs : Situation.Sound types { s with input } := ⟨h.todo, h.store⟩
      exact hs.assign (by rw [ht, JavaText.type_of_valueOf hv])

theorem execute (java : JavaText) {stmt : Stmt} (hstmt : stmt.wellTyped types = true) :
    (s.execute java types stmt).Meaningful types := by
  cases stmt with
  | printText text => exact h
  | printName name =>
    obtain ⟨t, ht⟩ := Option.isSome_iff_exists.1 hstmt
    obtain ⟨v, hv, -, -⟩ := h.store.value ht
    rw [Situation.execute, hv]
    exact h
  | read name => exact h.readLine java hstmt
  | setText name text => exact h.assign (by simpa [Stmt.wellTyped, Value.type] using hstmt)
  | setExpr name e =>
    obtain ⟨t, ht, he⟩ : ∃ t, types name = some t ∧ e.hasType types t = true := by
      simpa [Stmt.wellTyped, Option.any_eq_true] using hstmt
    rw [Situation.execute]
    obtain ⟨v, hv, rfl⟩ | hv := e.value_cases h.store he
    · rw [hv]
      exact h.assign ht
    · rw [hv]
      exact nofun
  | ifThen test thenBody =>
    simp only [Stmt.wellTyped, Bool.and_eq_true] at hstmt
    exact h.choose hstmt.1 hstmt.2 rfl
  | ifElse test thenBody elseBody =>
    simp only [Stmt.wellTyped, Bool.and_eq_true] at hstmt
    exact h.choose hstmt.1.1 hstmt.1.2 hstmt.2
  | whileDo test body =>
    -- The loop itself is left to be done after its body.
    have hloop := hstmt
    simp only [Stmt.wellTyped, Bool.and_eq_true] at hstmt
    refine h.choose hstmt.1 ?_ rfl
    rw [blockWellTyped_append, hstmt.2, blockWellTyped, hloop]
    rfl

theorem step (java : JavaText) : (Situation.step java types s).Meaningful types := by
  have htodo := h.todo
  rw [Situation.step]
  cases hs : s.todo with
  | nil => exact nofun
  | cons stmt rest =>
    rw [hs, blockWellTyped, Bool.and_eq_true] at htodo
    have hrest : Situation.Sound types { s with todo := rest } := ⟨htodo.2, h.store⟩
    exact hrest.execute java htodo.1

theorem runs {java : JavaText} {n : Nat} {lines : List String} {t : Situation}
    (hrun : Stepping.Runs (Situation.step java types) n s lines t) : t.Sound types := by
  induction hrun with
  | refl => exact h
  | cons head _ ih =>
    have hnext := h.step java
    rw [head] at hnext
    exact ih hnext

/-- A well-typed program never does anything without a meaning. -/
theorem not_wrong (java : JavaText) (lines : List String) :
    ¬Stepping.Ends (Situation.step java types) s lines .wrong := by
  rintro ⟨n, t, hrun, hstop⟩
  have hlast := (h.runs hrun).step java
  rw [hstop] at hlast
  exact hlast rfl

end Situation.Sound

end Typed

theorem Program.sound_start (p : Program) (typed : p.wellTyped = true) (input : List String) :
    (p.start input).Sound p.typing := by
  refine ⟨typed, fun x => ?_⟩
  simp only [Program.start]
  cases p.typing x <;> simp

end KnightCode
