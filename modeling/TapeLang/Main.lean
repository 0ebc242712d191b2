import TapeLang.Command.Run

/-!
# The executable

Reads what the arguments name from the file system into a tree, answers the request there, and writes
the result back.
-/

open TapeLang

/-- What the file system has at a path. -/
def entryAt (path : String) : IO (Option Entry) := do
  try
    let content ← IO.FS.readBinFile path
    return some (.file content.data.toList false)
  catch e =>
    match e with
    | .inappropriateType .. => return some .directory
    | _ => return none

/-- Adds what lies along a path to a tree. -/
def addPath (tree : FileTree) (path : String) : IO FileTree := do
  let mut tree := tree
  let mut place := tree.start (Path.isAbsolute path)
  let mut text := if Path.isAbsolute path then "/" else ""
  for part in Path.parts path do
    text := text ++ part
    place := if part = ".." then place.dropLast else if part = "." then place else place ++ [part]
    if part ≠ "." ∧ part ≠ ".." then
      if let some e ← entryAt text then tree := tree.insert place e
    text := text ++ "/"
  return tree

/-- The tree of the entries the command may look at. -/
def snapshot (paths : List String) : IO FileTree := do
  let working := Path.parts (← IO.currentDir).toString
  let above := (List.range working.length).map fun n => (working.take (n + 1), Entry.directory)
  paths.foldlM addPath ⟨above, working⟩

def readAll (input : IO.FS.Stream) : IO Bytes := do
  let mut bytes : Array UInt8 := #[]
  let mut more := true
  while more do
    let next ← input.read 65536
    if next.isEmpty then more := false else bytes := bytes ++ next.data
  return bytes.toList

/-- Writes the module of a tree to the file system in one move. -/
def writeModule (tree : FileTree) (path : String) : IO Unit := do
  if let .ok (_, .file content true) := tree.resolve path then
    let temporary := path ++ ".tmp"
    IO.FS.writeBinFile temporary ⟨content.toArray⟩
    IO.setAccessRights temporary
      { user := ⟨true, true, true⟩, group := ⟨true, false, true⟩, other := ⟨true, false, true⟩ }
    IO.FS.rename temporary path

/-- The machine that compiled programs run on. -/
def platform : Platform where
  allocates := (· ≤ 0x10000000000)
  mapFailure? size := if size ≤ 0x80000000 then none else some (.ofErrno 12)
  host := .plain {} fun _ => {}

/-- More steps than any run takes in practice. -/
def patience : Nat := 0x4000000000000000

def main (args : List String) : IO UInt32 := do
  match Command.parse? {} args with
  | none =>
    (← IO.getStderr).putStr Command.helpText
    return 1
  | some request =>
    let (paths, needsInput) := match request with
      | .perform o => ([o.source] ++ o.output.toList, o.output.isNone && !o.inspect)
      | _ => ([], false)
    let tree ← snapshot paths
    let input ← if needsInput then readAll (← IO.getStdin) else pure []
    match Command.respond platform patience tree (.ofBytes input) .collected request with
    | none => return 1
    | some (after, outcome) =>
      (← IO.getStdout).write ⟨outcome.out.toArray⟩
      (← IO.getStdout).flush
      (← IO.getStderr).putStr outcome.err
      if let .perform { output := some path, .. } := request then writeModule after path
      return UInt32.ofNat outcome.exit
