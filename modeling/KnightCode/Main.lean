import KnightCode.Tool.CommandLine

/-!
# The program

Runs the command line on the files of the machine.
-/

namespace KnightCode

def fileErrorOf : IO.Error → FileError
  | .noFileOrDirectory .. => .notFound
  | .inappropriateType .. => .isADirectory
  | e => .other (toString e)

/-- A file is written under another name first, so that no partial file is left behind. -/
def machineFiles : Files IO where
  read path := do
    try return .ok (← IO.FS.readBinFile path).toList
    catch e => return .error (fileErrorOf e)
  write path contents := do
    let staged := path ++ ".tmp"
    try
      IO.FS.writeBinFile staged ⟨contents.toArray⟩
      IO.FS.rename staged path
      return .ok ()
    catch e =>
      try IO.FS.removeFile staged
      catch _ => pure ()
      return .error (fileErrorOf e)

end KnightCode

open KnightCode in
def main (arguments : List String) : IO UInt32 := do
  let report ← CommandLine.run machineFiles arguments
  IO.print report.out
  IO.eprint report.err
  return report.exitCode
