import TapeLang.Bytes
import TapeLang.Channel.Failure
import TapeLang.FileTree.Path

/-!
# File trees

Files and directories by their absolute place, and a working directory. Places are lists of names; the
empty one is the root, which is always there.
-/

namespace TapeLang

abbrev Place := List String

inductive Entry where
  | directory
  /-- Everyone may read an executable file and run it, and its owner may write it. -/
  | file (content : Bytes) (executable : Bool)
  deriving DecidableEq, Repr

structure FileTree where
  entries : List (Place × Entry)
  working : Place
  deriving DecidableEq, Repr

namespace FileTree

/-- A tree with nothing in it but an empty working directory. -/
def empty : FileTree :=
  ⟨[(["work"], .directory)], ["work"]⟩

def lookup (t : FileTree) (place : Place) : Option Entry :=
  if place = [] then some .directory else t.entries.lookup place

def erase (t : FileTree) (place : Place) : FileTree :=
  { t with entries := t.entries.filter (·.1 ≠ place) }

/-- Puts an entry at a place, in the stead of what was there. -/
def insert (t : FileTree) (place : Place) (e : Entry) : FileTree :=
  { t with entries := (place, e) :: (t.erase place).entries }

/-- The longest name of a file, in bytes. -/
def longestName : Nat := 255

/-- The longest path, in bytes. -/
def longestPath : Nat := 4095

/-- A zero character ends a path for the system, so none may stand in it. -/
def hasZero (name : String) : Bool :=
  name.toList.any (· = '\x00')

def fail {α : Type} (errno : Nat) : Except Failure α :=
  .error (.ofErrno errno)

/-- Follows a name, which is looked up in a directory. -/
def enter (t : FileTree) (place : Place) (name : String) : Except Failure Place :=
  if t.lookup place ≠ some .directory then fail 20
  else if name = "." then .ok place
  else if name = ".." then .ok place.dropLast
  else if hasZero name then fail 22
  else if longestName < name.utf8ByteSize then fail 36
  else if t.lookup (place ++ [name]) = none then fail 2
  else .ok (place ++ [name])

/-- Follows names from a place. -/
def walk (t : FileTree) (place : Place) (names : List String) : Except Failure Place :=
  names.foldlM t.enter place

def start (t : FileTree) (absolute : Bool) : Place :=
  if absolute then [] else t.working

/-- Puts an entry at a path without dots. -/
def add (t : FileTree) (path : String) (e : Entry) : FileTree :=
  t.insert (t.start (Path.isAbsolute path) ++ Path.parts path) e

/-- The place of a path and what is there. -/
def resolve (t : FileTree) (path : String) : Except Failure (Place × Entry) := do
  if path = "" then fail 2
  if longestPath < path.utf8ByteSize then fail 36
  let place ← t.walk (t.start (Path.isAbsolute path)) (Path.parts path)
  match t.lookup place with
  | none => fail 2
  | some (.file content executable) =>
    if Path.endsInSlash path then fail 20 else return (place, .file content executable)
  | some .directory => return (place, .directory)

def isDirectory (t : FileTree) (path : String) : Bool :=
  match t.resolve path with
  | .ok (_, .directory) => true
  | _ => false

def isFile (t : FileTree) (path : String) : Bool :=
  match t.resolve path with
  | .ok (_, .file _ _) => true
  | _ => false

/-- The content of a file. -/
def read (t : FileTree) (path : String) : Except Failure Bytes := do
  match ← t.resolve path with
  | (_, .file content _) => return content
  | (_, .directory) => fail 21

/-- The directory a file at a path would lie in. -/
def parentPlace (t : FileTree) (path : String) : Except Failure Place := do
  if longestPath < (Path.parentText path).utf8ByteSize then fail 36
  let (absolute, names) := Path.parent path
  let place ← t.walk (t.start absolute) names
  if t.lookup place = some .directory then return place else fail 20

/-- Where a rename to a path would put a file. The last name may be new, but it has to be a name, and a
file is not put in the stead of a directory. -/
def renameTarget (t : FileTree) (path : String) : Except Failure Place := do
  if hasZero path then fail 22
  if longestPath < path.utf8ByteSize then fail 36
  match (Path.parts path).getLast? with
  | none => fail 16
  | some name =>
    let place ← t.walk (t.start (Path.isAbsolute path)) (Path.parts path).dropLast
    if t.lookup place ≠ some .directory then fail 20
    else if name = "." ∨ name = ".." then fail 16
    else if longestName < name.utf8ByteSize then fail 36
    else if Path.endsInSlash path then fail 20
    else if t.lookup (place ++ [name]) = some .directory then fail 21
    else return place ++ [name]

/-- Moves an entry to a path, in the stead of a file that was there. -/
def rename (t : FileTree) (old : Place) (path : String) : Except Failure FileTree := do
  let target ← t.renameTarget path
  match t.lookup old with
  | none => fail 2
  | some e => return (t.erase old).insert target e

/-- A name that is not used in a directory. -/
abbrev NewName (t : FileTree) (directory : Place) :=
  { name : String // t.lookup (directory ++ [name]) = none }

/-- The first of the names `.tmp0`, `.tmp1`, … that is new in a directory. One more than there are entries
are tried. -/
def firstNewName (t : FileTree) (directory : Place) : Except Failure (NewName t directory) :=
  let names := (List.range (t.entries.length + 1)).map fun i => ".tmp" ++ toString i
  match h : names.find? fun name => t.lookup (directory ++ [name]) = none with
  | some name => .ok ⟨name, by simpa using List.find?_some h⟩
  | none => .error ⟨.other, "too many temporary files exist"⟩

/-- What the system does while a file is installed: under which name it creates a temporary file, and which
of the steps after that it refuses. -/
structure Circumstances where
  create : (t : FileTree) → (directory : Place) → Except Failure (NewName t directory) :=
    firstNewName
  /-- A refusal, and how many bytes were written before it. -/
  write : Option (Nat × Failure) := none
  sync : Option Failure := none
  permit : Option Failure := none
  move : Option Failure := none

/-- Fills a temporary file, makes it executable and moves it to a path. -/
def complete (c : Circumstances) (t : FileTree) (temporary : Place) (path : String)
    (content : Bytes) : FileTree × Except Failure Unit :=
  match c.write with
  | some (count, f) => (t.insert temporary (.file (content.take count) false), .error f)
  | none =>
    let t := t.insert temporary (.file content false)
    match c.sync.or c.permit with
    | some f => (t, .error f)
    | none =>
      let t := t.insert temporary (.file content true)
      match c.move with
      | some f => (t, .error f)
      | none =>
        match t.rename temporary path with
        | .error f => (t, .error f)
        | .ok t => (t, .ok ())

/-- Writes an executable file in one move: it is completed under another name in the same directory
and then renamed. If that fails, the other file is removed. -/
def installUnder (c : Circumstances) (t : FileTree) (path : String) (content : Bytes) :
    FileTree × Except Failure Unit :=
  match t.parentPlace path with
  | .error f => (t, .error f)
  | .ok directory =>
    match c.create t directory with
    | .error f => (t, .error f)
    | .ok name =>
      let temporary := directory ++ [name.val]
      match complete c (t.insert temporary (.file [] false)) temporary path content with
      | (t, .ok ()) => (t, .ok ())
      | (t, .error f) => (t.erase temporary, .error f)

/-- Installs a file where nothing is refused. -/
def install (t : FileTree) (path : String) (content : Bytes) : FileTree × Except Failure Unit :=
  installUnder {} t path content

/-- The entries below the working directory by their relative paths, in ascending order. -/
def listing (t : FileTree) : List (String × Entry) :=
  let below := t.entries.filterMap fun (place, e) =>
    if t.working.isPrefixOf place ∧ place ≠ t.working then
      some ("/".intercalate (place.drop t.working.length), e)
    else none
  below.mergeSort fun a b => a.1 ≤ b.1

end FileTree

end TapeLang
