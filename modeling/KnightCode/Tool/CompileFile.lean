import KnightCode.Compile.Artifact
import KnightCode.Tool.Folder

/-!
# Compiling a file

The class is named after the file that it is written to. Nothing is written when compiling fails, or when an error was
noticed.
-/

namespace KnightCode

variable {m : Type → Type} [Monad m]

def textOfBytes (bytes : Bytes) : Except FileError String :=
  match String.fromUTF8? ⟨bytes.toArray⟩ with
  | some text => .ok text
  | none => .error .notText

/-- The class that the contents of a file are compiled to, named after the output file. -/
def compileContents (contents : Except FileError Bytes) (output : String) (options : Options) :
    Except Failure Artifact :=
  match contents >>= textOfBytes with
  | .error e => .error ⟨.file e, []⟩
  | .ok text =>
    match Path.stem? output with
    | none => .error ⟨.code (.noClassName output), []⟩
    | some className => Artifact.ofText text className options

def compileFile (files : Files m) (input output : String) (options : Options) : m (Except Failure (List Notice)) := do
  match compileContents (← files.read input) output options with
  | .error failure => return .error failure
  | .ok artifact =>
    if artifact.hasErrors then return .ok artifact.notices
    match ← files.write output artifact.classFile.bytes with
    | .ok _ => return .ok artifact.notices
    | .error e => return .error ⟨.file e, artifact.notices⟩

def loadClass (files : Files m) (path : String) : m (Except Fault ClassFile) := do
  match ← files.read path with
  | .error e => return .error (.file e)
  | .ok contents =>
    match ClassFile.read contents with
    | .ok (c, _) => return .ok c
    | .error e => return .error (.unreadable e)

end KnightCode
