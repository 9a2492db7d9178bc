import KnightCode.Jvm.ClassFile
import KnightCode.Source.Program
import KnightCode.Source.Token

/-!
# Faults

Why compiling stops, with the words for each reason, and the diagnostics that do not stop it.
-/

namespace KnightCode

inductive CodeFault
  | pool (error : PoolError)
  | invalidClassName (name : String)
  | noClassName (path : String)
  | tooManyVariables (name : String)
  | stackUnderflow
  | dupOnEmptyStack
  | unknownLabel (label : Nat)
  | labelBoundTwice (label : Nat)
  | inconsistentStack (label expected got : Nat)
  | invalidFieldDescriptor (descriptor : String)
  | invalidMethodDescriptor (descriptor : String)
  | unsupportedType (descriptor : String)
  | bodyTooLargeForNew
  | bodyTooLarge (size : Nat)
  | branchTooFar (offset : Int)
  deriving DecidableEq, Repr

def CodeFault.message : CodeFault → String
  | .pool error => error.message
  | .invalidClassName name => s!"invalid class name '{name}'"
  | .noClassName path => s!"cannot derive a class name from {path}"
  | .tooManyVariables name => s!"too many variables: cannot allocate slot for '{name}'"
  | .stackUnderflow => "operand stack underflow"
  | .dupOnEmptyStack => "dup on empty operand stack"
  | .unknownLabel label => s!"unknown label {label}"
  | .labelBoundTwice label => s!"label {label} bound twice"
  | .inconsistentStack label expected got =>
    s!"inconsistent operand stack at label {label}: {expected} vs {got} entries"
  | .invalidFieldDescriptor descriptor => s!"invalid field descriptor: {descriptor}"
  | .invalidMethodDescriptor descriptor => s!"invalid method descriptor: {descriptor}"
  | .unsupportedType descriptor => s!"unsupported operand type {descriptor}"
  | .bodyTooLargeForNew => "method body too large"
  | .bodyTooLarge size => s!"method body is {size} bytes, limit is 65535"
  | .branchTooFar offset => s!"branch offset {offset} does not fit in 16 bits"

inductive FileError
  | notFound
  | notADirectory
  | isADirectory
  | notText
  | other (reason : String)
  deriving DecidableEq, Repr

def FileError.message : FileError → String
  | .notFound => "No such file or directory (os error 2)"
  | .notADirectory => "Not a directory (os error 20)"
  | .isADirectory => "Is a directory (os error 21)"
  | .notText => "stream did not contain valid UTF-8"
  | .other reason => reason

def ReadError.message : ReadError → String
  | .badMagic => "bad magic at 0x0"
  | .constant position => s!"no constant can be read at byte {position}"
  | .instruction position => s!"no instruction can be read at byte {position}"
  | .truncated => "failed to fill whole buffer"

inductive Fault
  | parse (error : SyntaxError)
  | undeclared (name : String)
  | duplicate (name : String)
  | unresolvedLabel (label : Nat)
  | code (fault : CodeFault)
  | file (error : FileError)
  | unreadable (error : ReadError)
  deriving DecidableEq, Repr

def Fault.message : Fault → String
  | .parse error => s!"parse error at {error.position.line}:{error.position.column}: {error.fault.message}"
  | .undeclared name => s!"variable '{name}' has not been declared"
  | .duplicate name => s!"variable '{name}' is already declared in this scope"
  | .unresolvedLabel label => s!"internal error: label {label} was referenced but never bound"
  | .code fault => s!"codegen error: {fault.message}"
  | .file error => s!"I/O error: {error.message}"
  | .unreadable error => s!"class file encoding error: {error.message}"

/-! ## Diagnostics -/

inductive Severity
  | warning
  | error
  deriving DecidableEq, Repr

/-- What is reported while compiling goes on. -/
inductive Notice
  | redeclared (name : String) (type : VarType)
  | textAssigned (type : VarType) (name : String)
  | typesDiffer (valueType type : VarType) (name : String)
  | undeclared (name : String)
  deriving DecidableEq, Repr

namespace Notice

def severity : Notice → Severity
  | .undeclared _ => .error
  | _ => .warning

def message : Notice → String
  | .redeclared name type =>
    s!"variable '{name}' is already declared in this scope; ignoring redeclaration as {type.spelling}"
  | .textAssigned type name => s!"assigning a string literal to {type.spelling} variable '{name}'"
  | .typesDiffer valueType type name =>
    s!"assigning a {valueType.spelling} expression to {type.spelling} variable '{name}'"
  | .undeclared name => s!"variable '{name}' has not been declared"

def render (n : Notice) : String :=
  match n.severity with
  | .warning => "warning: " ++ n.message
  | .error => "error: " ++ n.message

end Notice

end KnightCode
