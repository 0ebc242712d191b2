/-!
# Paths

A path is text. Slashes separate its components; empty components and single dots behind the first
component say nothing.
-/

namespace TapeLang.Path

/-- The non-empty parts between slashes. -/
def parts (path : String) : List String :=
  ((path.toList.splitOn '/').filter (· ≠ [])).map String.ofList

def isAbsolute (path : String) : Bool :=
  path.toList.head? = some '/'

/-- Whether a path insists on naming a directory. -/
def endsInSlash (path : String) : Bool :=
  path.toList.getLast? = some '/'

/-- The parts that say something: a dot counts only at the front of a relative path. -/
def components (path : String) : List String :=
  match parts path with
  | [] => []
  | first :: rest =>
    let rest := rest.filter (· ≠ ".")
    if first = "." ∧ isAbsolute path then rest else first :: rest

/-- The path without its last component: whether it is absolute, and its components. -/
def parent (path : String) : Bool × List String :=
  (isAbsolute path, (components path).dropLast)

/-- Whether a part behind the first says nothing. -/
def isSilent (part : List Char) : Bool :=
  part = [] ∨ part = ['.']

/-- The text of a path in front of its last component, without what says nothing at its end. A single
component lies in the directory that is a dot. -/
def parentText (path : String) : String :=
  match path.toList.splitOn '/' with
  | [] => "."
  | first :: rest =>
    match rest.reverse.dropWhile isSilent with
    | [] => "."
    | _ :: above =>
      match above.dropWhile isSilent with
      | [] => if first = [] then "/" else String.ofList first
      | above => String.ofList (['/'].intercalate (first :: above.reverse))

/-- The last component, unless it stands for another place. -/
def fileName? (path : String) : Option String :=
  match (components path).getLast? with
  | some name => if name = "." ∨ name = ".." then none else some name
  | none => none

/-- The file name up to its last dot. A dot at the front alone does not count. -/
def fileStem? (path : String) : Option String :=
  (fileName? path).map fun name =>
    match (name.toList.reverse.dropWhile (· ≠ '.')).reverse with
    | [] => name
    | [_] => name
    | upToDot => String.ofList upToDot.dropLast

end TapeLang.Path
