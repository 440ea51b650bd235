import ModelChecker.Command.Host
import ModelChecker.Command.Path

namespace ModelChecker

/-- A folder that is so many levels above the one that a command runs in, or the root. -/
inductive Directory where
  | above (levels : Nat)
  | root
deriving DecidableEq, Repr

namespace Directory

def here : Directory := .above 0

def parent : Directory → Directory
  | .above levels => .above (levels + 1)
  | .root => .root

end Directory

/-- The place of a file. -/
structure Location where
  directory : Directory
  name : String
deriving DecidableEq, Repr

structure Disk where
  files : List (Location × ByteArray) := []

namespace Disk

def maxPath : Nat := 4095

def maxName : Nat := 255

def ofFiles (files : List (String × ByteArray)) : Disk :=
  ⟨files.map fun (name, bytes) => (⟨.here, name⟩, bytes)⟩

def filesHere (d : Disk) : List (String × ByteArray) :=
  (d.files.filter (·.1.directory = .here)).map fun (l, bytes) => (l.name, bytes)

def content? (d : Disk) (l : Location) : Except FileError (Option ByteArray) :=
  if maxName < l.name.utf8ByteSize then .error .nameTooLong else .ok (d.files.lookup l)

def content (d : Disk) (l : Location) : Except FileError ByteArray :=
  match d.content? l with
  | .error e => .error e
  | .ok none => .error .noEntry
  | .ok (some bytes) => .ok bytes

def erase (d : Disk) (l : Location) : Disk := ⟨d.files.filter (·.1 ≠ l)⟩

def put (d : Disk) (l : Location) (bytes : ByteArray) : Disk := ⟨(l, bytes) :: (d.erase l).files⟩

/-- The folder that the parts of a path lead to. Whatever has a name is no folder. -/
def enter (d : Disk) : Directory → List String → Except FileError Directory
  | dir, [] => .ok dir
  | dir, part :: rest =>
    if Path.isName part then
      match d.content ⟨dir, part⟩ with
      | .error e => .error e
      | .ok _ => .error .notDirectory
    else d.enter (if part = ".." then dir.parent else dir) rest

/-- Where a path starts, and its parts. -/
def start (path : String) : Except FileError (Directory × List String) :=
  if path.isEmpty then .error .noEntry
  else if maxPath < path.utf8ByteSize then .error .nameTooLong
  else .ok (if Path.isAbsolute path then .root else .here, Path.parts path)

/-- The place of the file that a path leads to. A path whose last part is no name leads to a
folder. -/
def locate (d : Disk) (path : String) : Except FileError Location := do
  let (dir, parts) ← start path
  let last := parts.getLastD ""
  if Path.isName last then return ⟨← d.enter dir parts.dropLast, last⟩
  let _ ← d.enter dir parts
  throw .isDirectory

def read (d : Disk) (path : String) : Except FileError ByteArray := do
  d.content (← d.locate path)

def write (d : Disk) (path : String) (bytes : ByteArray) : Except FileError Disk := do
  let l ← d.locate path
  let _ ← d.content? l
  return d.put l bytes

/-- The entry of a folder that a path names, and whether slashes follow the name. -/
def entry (d : Disk) (path : String) : Except FileError (Location × Bool) := do
  let (dir, parts) ← start path
  let named := (parts.reverse.dropWhile (· = "")).reverse
  let dir ← d.enter dir named.dropLast
  let last := named.getLastD ""
  if Path.isName last then return (⟨dir, last⟩, named.length < parts.length)
  throw .busy

/-- Gives a file another place, instead of the file that was there. Slashes after a name are for
folders only. -/
def rename (d : Disk) (source target : String) : Except FileError Disk := do
  let (old, oldSlash) ← d.entry source
  let (new, newSlash) ← d.entry target
  let bytes ← d.content old
  let _ ← d.content? new
  if oldSlash || newSlash then throw .notDirectory
  return (d.erase old).put new bytes

/-- Carries out a change, or leaves the disk as it is. -/
def change (f : Disk → Except FileError Disk) : StateM Disk (Except FileError Unit) := do
  match f (← get) with
  | .error e => return .error e
  | .ok d => do
    set d
    return .ok ()

def host (revision : Option String) : Host (StateM Disk) where
  read path := do return (← get).read path
  write path bytes := change (·.write path bytes)
  rename source target := change (·.rename source target)
  revision := return revision
  seconds := return 0
  milliseconds := return 0

end Disk

end ModelChecker
