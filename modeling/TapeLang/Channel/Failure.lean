/-!
# Failures of byte channels and files

A failure has a kind, which programs compare, and a text, which people read.
-/

namespace TapeLang

inductive FailureKind where
  | notFound | permissionDenied | connectionReset | brokenPipe | wouldBlock | invalidData
  | timedOut | writeZero | unexpectedEnd | interrupted | other
  | inputOutput | outOfMemory | storageFull | isDirectory | notDirectory | nameTooLong | busy
  | invalidInput
  deriving DecidableEq, Repr

structure Failure where
  kind : FailureKind
  text : String
  deriving DecidableEq, Repr

/-- The text of a failure that carries nothing but its kind. -/
def FailureKind.text : FailureKind → String
  | .notFound => "entity not found"
  | .permissionDenied => "permission denied"
  | .connectionReset => "connection reset"
  | .brokenPipe => "broken pipe"
  | .wouldBlock => "operation would block"
  | .invalidData => "invalid data"
  | .timedOut => "timed out"
  | .writeZero => "write zero"
  | .unexpectedEnd => "unexpected end of file"
  | .interrupted => "operation interrupted"
  | .other => "other error"
  | .inputOutput => "input/output error"
  | .outOfMemory => "out of memory"
  | .storageFull => "no storage space"
  | .isDirectory => "is a directory"
  | .notDirectory => "not a directory"
  | .nameTooLong => "invalid filename"
  | .busy => "resource busy"
  | .invalidInput => "invalid input parameter"

/-- The number a Linux kernel reports for a failure of this kind. -/
def FailureKind.errno : FailureKind → Nat
  | .notFound => 2
  | .permissionDenied => 13
  | .connectionReset => 104
  | .brokenPipe => 32
  | .wouldBlock => 11
  | .invalidData => 74
  | .timedOut => 110
  | .writeZero => 5
  | .unexpectedEnd => 5
  | .interrupted => 4
  | .other => 5
  | .inputOutput => 5
  | .outOfMemory => 12
  | .storageFull => 28
  | .isDirectory => 21
  | .notDirectory => 20
  | .nameTooLong => 36
  | .busy => 16
  | .invalidInput => 22

namespace Failure

def ofKind (kind : FailureKind) : Failure :=
  ⟨kind, kind.text⟩

/-- The failure for a system error number, with the system's wording. -/
def ofErrno (n : Nat) : Failure :=
  let kindAndText : FailureKind × String :=
    match n with
    | 2 => (.notFound, "No such file or directory")
    | 4 => (.interrupted, "Interrupted system call")
    | 5 => (.inputOutput, "Input/output error")
    | 11 => (.wouldBlock, "Resource temporarily unavailable")
    | 12 => (.outOfMemory, "Cannot allocate memory")
    | 13 => (.permissionDenied, "Permission denied")
    | 16 => (.busy, "Device or resource busy")
    | 20 => (.notDirectory, "Not a directory")
    | 21 => (.isDirectory, "Is a directory")
    | 22 => (.invalidInput, "Invalid argument")
    | 28 => (.storageFull, "No space left on device")
    | 32 => (.brokenPipe, "Broken pipe")
    | 36 => (.nameTooLong, "File name too long")
    | _ => (.other, "Unknown error " ++ toString n)
  ⟨kindAndText.1, kindAndText.2 ++ " (os error " ++ toString n ++ ")"⟩

/-- An interrupted call is made again; every other failure is reported. -/
def isInterrupted (f : Failure) : Bool :=
  f.kind == .interrupted

/-- A write that takes nothing. -/
def incompleteWrite : Failure :=
  ⟨.writeZero, "failed to write whole buffer"⟩

end Failure

/-- A failure that repeats for ever. It is no interruption, so that retrying ends. -/
abbrev SteadyFailure := { f : Failure // f.isInterrupted = false }

end TapeLang
