import KnightCode.Tool.CompileFile

/-!
# The command line

Two paths, the program and the class file to write, and two options. What a run prints and its exit code.
-/

namespace KnightCode

structure Invocation where
  input : String
  output : String
  noFrames : Bool
  reportUndeclared : Bool
  deriving DecidableEq, Repr

inductive Demand
  | compile (invocation : Invocation)
  | help
  | version
  | misuse
  deriving DecidableEq, Repr

/-- What a run leaves behind: texts for the two output streams, and the exit code. -/
structure Report where
  out : String
  err : String
  exitCode : UInt32
  deriving DecidableEq, Repr

namespace CommandLine

/-- The arguments so far; `literal` once `--` has come, after which nothing is an option. -/
structure Seen where
  paths : List String
  noFrames : Bool
  reportUndeclared : Bool
  literal : Bool
  deriving DecidableEq, Repr

/-- Takes a path: there are two, and none is empty. -/
def takePath (seen : Seen) (path : String) : Except Demand Seen :=
  if path = "" || seen.paths.length ≥ 2 then .error .misuse
  else .ok { seen with paths := seen.paths ++ [path] }

/-- Takes an argument that starts with a dash. Each option may come once. -/
def takeOption (seen : Seen) (option : String) : Except Demand Seen :=
  match option with
  | "--" => .ok { seen with literal := true }
  | "--no-frames" => if seen.noFrames then .error .misuse else .ok { seen with noFrames := true }
  | "--report-undeclared" =>
    if seen.reportUndeclared then .error .misuse else .ok { seen with reportUndeclared := true }
  | "--help" => .error .help
  | "--version" => .error .version
  | option =>
    match option.toList with
    | '-' :: 'h' :: _ => .error .help
    | '-' :: 'V' :: _ => .error .version
    | _ => .error .misuse

def take (seen : Seen) (argument : String) : Except Demand Seen :=
  if !seen.literal && argument.startsWith "-" && argument ≠ "-" then takeOption seen argument
  else takePath seen argument

def demand (arguments : List String) : Demand :=
  match arguments.foldlM take ⟨[], false, false, false⟩ with
  | .error d => d
  | .ok seen =>
    match seen.paths with
    | [input, output] => .compile ⟨input, output, seen.noFrames, seen.reportUndeclared⟩
    | _ => .misuse

def usage : String := "Usage: [OPTIONS] <INPUT> <OUTPUT>\n"

def help : String :=
  "Compile a KnightCode program to a runnable JVM class file\n\n" ++ usage ++
    "\nArguments:\n" ++
    "  <INPUT>   KnightCode source file\n" ++
    "  <OUTPUT>  Class file to write; its stem becomes the class name\n" ++
    "\nOptions:\n" ++
    "      --no-frames          Emit a Java 5 class without StackMapTable frames\n" ++
    "      --report-undeclared  Report undeclared variables and keep going instead of stopping at the first\n" ++
    "  -h, --help               Print help\n" ++
    "  -V, --version            Print version\n"

def options (i : Invocation) : Options where
  frames := !i.noFrames
  policy := if i.reportUndeclared then .report else .fatal
  sourceFile := Path.fileName? i.input

def noticeLines (input : String) (notices : List Notice) : String :=
  String.join (notices.map fun n => input ++ ": " ++ n.render ++ "\n")

def reportOn (i : Invocation) : Except Failure (List Notice) → Report
  | .ok notices =>
    let err := noticeLines i.input notices
    if notices.any (·.severity = .error) then
      ⟨"", err ++ "compilation failed; " ++ i.output ++ " not written\n", 1⟩
    else ⟨"", err, 0⟩
  | .error failure =>
    ⟨"", noticeLines i.input failure.notices ++ i.input ++ ": error: " ++ failure.fault.message ++ "\n", 1⟩

def run {m : Type → Type} [Monad m] (files : Files m) (arguments : List String) : m Report := do
  match demand arguments with
  | .compile i => return reportOn i (← compileFile files i.input i.output (options i))
  | .help => return ⟨help, "", 0⟩
  | .version => return ⟨"0.1.0\n", "", 0⟩
  | .misuse => return ⟨"", usage, 2⟩

end CommandLine

end KnightCode
