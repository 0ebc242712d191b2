import TapeLang.Module.Inspect
import TapeLang.Module.Name
import TapeLang.Native.SystemCalls
import TapeLang.FileTree.Basic
import TapeLang.Text.Quoted

/-!
# Emitting modules

Builds the image of a program and installs it in a file tree.
-/

namespace TapeLang.Module

open Native

inductive DestinationDefect where
  | empty
  | directory
  | noParent
  deriving DecidableEq, Repr

def DestinationDefect.reason : DestinationDefect → String
  | .empty => "is empty"
  | .directory => "is a directory"
  | .noParent => "parent directory does not exist"

inductive EmitError where
  | invalidName (name : String) (d : NameDefect)
  | invalidDestination (path : String) (d : DestinationDefect)
  | write (f : Failure)
  | malformed (d : Defect)
  | codegen (e : CodegenError)
  deriving DecidableEq, Repr

def EmitError.message : EmitError → String
  | .invalidName name d => "invalid module name " ++ Text.Quoted.encode name ++ ": " ++ d.reason
  | .invalidDestination path d => "invalid destination '" ++ path ++ "': " ++ d.reason
  | .write f => "cannot write module: " ++ f.text
  | .malformed d => "malformed module: " ++ d.reason
  | .codegen e => e.message

/-- The tape and the policy of emitted programs. -/
structure Emitter where
  capacity : Nat := Tape.defaultCapacity
  policy : EndOfInput := .zero
  deriving DecidableEq, Repr

namespace Emitter

/-- The image of a program. The name is checked before the program is compiled. -/
def build (e : Emitter) (hash : Hash) (p : Program) (name : String) :
    Except (Refusal EmitError) Bytes := do
  match nameDefect? name with
  | some d => .error (.error (.invalidName name d))
  | none =>
    let code ← (generate p (SystemCalls.environment e.capacity) e.policy).mapError
      (Refusal.map .codegen)
    Refusal.ofBreach (link hash code name e.capacity)

/-- What keeps a file from being written at a path. -/
def destinationDefect? (t : FileTree) (path : String) : Option DestinationDefect :=
  if path = "" then some .empty
  else if t.isDirectory path then some .directory
  else match t.parentPlace path with
    | .ok _ => none
    | .error _ => some .noParent

/-- Builds a program and installs it at a path: the destination is checked first, and nothing is written
before the image is complete. -/
def emitUnder (c : FileTree.Circumstances) (e : Emitter) (hash : Hash) (t : FileTree) (p : Program)
    (name path : String) : FileTree × Except (Refusal EmitError) Unit :=
  match destinationDefect? t path with
  | some d => (t, .error (.error (.invalidDestination path d)))
  | none =>
    match e.build hash p name with
    | .error r => (t, .error r)
    | .ok image =>
      match FileTree.installUnder c t path image with
      | (t, .ok ()) => (t, .ok ())
      | (t, .error f) => (t, .error (.error (.write f)))

/-- Emits a program where nothing is refused. -/
def emit (e : Emitter) (hash : Hash) (t : FileTree) (p : Program) (name path : String) :
    FileTree × Except (Refusal EmitError) Unit :=
  e.emitUnder {} hash t p name path

end Emitter

end TapeLang.Module
