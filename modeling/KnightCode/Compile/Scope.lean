import KnightCode.Compile.Fault
import KnightCode.Register

/-!
# Scopes

Variables live in nested scopes. Each variable gets a slot of its own: slots count from one, slot zero holds the
arguments of the program, and a slot is not used again after its scope has ended. A table remembers the literal that
was last assigned to each variable.
-/

namespace KnightCode

inductive Value
  | integer (value : Int32)
  | text (value : String)
  deriving DecidableEq, Repr

def VarType.default : VarType → Value
  | .integer => .integer 0
  | .text => .text ""

structure Variable where
  name : String
  type : VarType
  slot : UInt16
  value : Value
  deriving DecidableEq, Repr

abbrev Scope := Register String Variable Variable.name

def Scope.setAt (s : Scope) (position : Nat) (value : Value) : Scope :=
  s.modify position (fun v => { v with value }) fun _ => rfl

/-- The innermost scope, the scopes around it from inside out, and the slot of the next variable. -/
structure ScopeTable where
  innermost : Scope
  outer : List Scope
  nextSlot : UInt16

abbrev Scoping := EStateM Fault ScopeTable

namespace ScopeTable

def empty : ScopeTable := ⟨.empty, [], 1⟩

def depth (t : ScopeTable) : Nat := t.outer.length + 1

def enter (t : ScopeTable) : ScopeTable := ⟨.empty, t.innermost :: t.outer, t.nextSlot⟩

/-- Leaves the innermost scope. The outermost scope stays. -/
def exit (t : ScopeTable) : ScopeTable :=
  match t.outer with
  | [] => t
  | scope :: outer => ⟨scope, outer, t.nextSlot⟩

theorem exit_enter (t : ScopeTable) : t.enter.exit = t := rfl

/-- The variable with this name that is declared innermost. -/
def lookup? (t : ScopeTable) (name : String) : Option Variable :=
  (t.innermost.find? name).or (t.outer.findSome? (·.find? name))

/-- Adds a variable to the innermost scope. Slot 65535 is never given out. -/
def declare (name : String) (type : VarType) (value : Value) : Scoping Variable := fun t =>
  -- A full table says so even if it has the name.
  if t.nextSlot = 65535 then .error (.code (.tooManyVariables name)) t
  else if (t.innermost.position? name).isSome then .error (.duplicate name) t
  else
    let v := ⟨name, type, t.nextSlot, value⟩
    .ok v { t with innermost := t.innermost.push v, nextSlot := t.nextSlot + 1 }

def setFirst? (name : String) (value : Value) : List Scope → Option (List Scope)
  | [] => none
  | scope :: rest =>
    match scope.position? name with
    | some i => some (scope.setAt i value :: rest)
    | none => (setFirst? name value rest).map (scope :: ·)

def set (name : String) (value : Value) : Scoping Unit := fun t =>
  match t.innermost.position? name with
  | some i => .ok () { t with innermost := t.innermost.setAt i value }
  | none =>
    match setFirst? name value t.outer with
    | some outer => .ok () { t with outer }
    | none => .error (.undeclared name) t

def current (t : ScopeTable) : List Variable := t.innermost.entries.toList

end ScopeTable

end KnightCode
