import KnightCode.Compile.Body
import KnightCode.Compile.Scope

/-!
# Sessions

A session has what compiling a program changes: the method body, the scope table and what has been noticed. Work in a
session stops at the first fault. What was done before the fault stays done; only the scopes that were entered are left.
-/

namespace KnightCode

inductive UndeclaredPolicy
  | fatal
  | report
  deriving DecidableEq, Repr

structure Session where
  className : String
  policy : UndeclaredPolicy
  body : Body
  scope : ScopeTable
  notices : Array Notice
  readsInput : Bool

abbrev Compiling := EStateM Fault Session

namespace Session

/-- Does something to the body, which is taken out of the session meanwhile. -/
def onBody {α : Type} (work : Build α) : Compiling α := fun s =>
  match s with
  | ⟨className, policy, body, scope, notices, readsInput⟩ =>
    match work body with
    | .ok a body => .ok a ⟨className, policy, body, scope, notices, readsInput⟩
    | .error fault body => .error fault ⟨className, policy, body, scope, notices, readsInput⟩

def onScope {α : Type} (work : Scoping α) : Compiling α := fun s =>
  match s with
  | ⟨className, policy, body, scope, notices, readsInput⟩ =>
    match work scope with
    | .ok a scope => .ok a ⟨className, policy, body, scope, notices, readsInput⟩
    | .error fault scope => .error fault ⟨className, policy, body, scope, notices, readsInput⟩

def call (c : Call) : Compiling Unit := onBody c.perform

def say (notice : Notice) : Compiling Unit := modify fun s => { s with notices := s.notices.push notice }

def newLabel : Compiling Nat := do
  let label := (← get).body.labels.size
  call .newLabel
  return label

/-- The slot and the type of a variable. One that is not declared is a fault, or it is reported and has none. -/
def resolve (name : String) : Compiling (Option (UInt16 × VarType)) := do
  match (← get).scope.lookup? name with
  | some v => return some (v.slot, v.type)
  | none =>
    match (← get).policy with
    | .fatal => throw (.undeclared name)
    | .report =>
      say (.undeclared name)
      return none

/-- Declares a variable. If the innermost scope has the name, this is noticed and nothing is declared. -/
def declare (d : Declaration) : Compiling (Option Variable) :=
  tryCatch (some <$> onScope (ScopeTable.declare d.name d.type d.type.default)) fun
    | .duplicate name => do
      say (.redeclared name d.type)
      return none
    | fault => throw fault

def remember (name : String) (value : Value) : Compiling Unit := onScope (ScopeTable.set name value)

/-- Does some work in a scope of its own, which is left whether the work succeeds or fails. -/
def inNewScope (work : Compiling Unit) : Compiling Unit := do
  onScope (modify ScopeTable.enter)
  try work finally onScope (modify ScopeTable.exit)

end Session

end KnightCode
