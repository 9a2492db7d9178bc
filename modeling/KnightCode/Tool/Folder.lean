import KnightCode.Compile.Fault

/-!
# Folders

Paths, and the files that a tool can read and write. A folder holds files and further folders; it is the world in which
a path means something. The same work can be done in a folder and on the files of a machine.
-/

namespace KnightCode

namespace Path

/-- The names in a path. Repeated slashes and dots say nothing. -/
def segments (path : String) : List String := (path.splitOn "/").filter fun s => s ≠ "" && s ≠ "."

/-- The last name of a path; there is none if the path goes up at its end. -/
def fileName? (path : String) : Option String :=
  match (segments path).getLast? with
  | some ".." | none => none
  | some name => some name

/-- A file's name without what follows its last dot. A dot at the start does not count. -/
def stem? (path : String) : Option String :=
  (fileName? path).map fun name =>
    match String.intercalate "." (name.splitOn ".").dropLast with
    | "" => name
    | stem => stem

end Path

structure Files (m : Type → Type) where
  read : String → m (Except FileError Bytes)
  write : String → Bytes → m (Except FileError Unit)

/-- Folders and files by the names that lead to them from the top. -/
structure Folder where
  folders : List (List String)
  files : List (List String × Bytes)
  deriving DecidableEq, Repr

namespace Folder

inductive Entry
  | folder
  | file (contents : Bytes)
  deriving DecidableEq, Repr

def entry? (f : Folder) (place : List String) : Option Entry :=
  if place = [] || f.folders.contains place then some .folder
  else (f.files.lookup place).map .file

def walkStep (f : Folder) (place : List String) (segment : String) : Except FileError (List String) :=
  match f.entry? place with
  | none => .error .notFound
  | some (.file _) => .error .notADirectory
  | some .folder =>
    if segment = "" || segment = "." then .ok place
    else if segment = ".." then if place = [] then .error .notFound else .ok place.dropLast
    else .ok (place ++ [segment])

/-- Where a path leads. Everything before its last name has to be there. -/
def locate (f : Folder) (path : String) : Except FileError (List String) :=
  if path = "" || path.startsWith "/" then .error .notFound
  else (path.splitOn "/").foldlM f.walkStep []

def read (f : Folder) (path : String) : Except FileError Bytes := do
  match f.entry? (← f.locate path) with
  | some (.file contents) => return contents
  | some .folder => throw .isADirectory
  | none => throw .notFound

def put (f : Folder) (place : List String) (contents : Bytes) : Folder :=
  { f with files := (place, contents) :: f.files.filter (·.1 ≠ place) }

def write (f : Folder) (path : String) (contents : Bytes) : Except FileError Folder := do
  let place ← f.locate path
  if f.entry? place = some .folder then throw .isADirectory
  return f.put place contents

/-- The files of a folder that another one does not have, or not with these contents. -/
def newIn (f old : Folder) : List (List String × Bytes) :=
  f.files.filter fun (place, contents) => old.files.lookup place ≠ some contents

def access : Files (StateM Folder) where
  read path := return (← get).read path
  write path contents := do
    match (← get).write path contents with
    | .ok f => set f; return .ok ()
    | .error e => return .error e

end Folder

end KnightCode
