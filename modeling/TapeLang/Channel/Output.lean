import TapeLang.Channel.Failure

/-!
# Output channels

An output is a script of what each write call of one byte meets, and the bytes taken so far. After
the script every call takes its byte, or meets a failure that stands for ever.
-/

namespace TapeLang

inductive OutputEvent where
  | taken
  | refused
  | failed (f : Failure)
  deriving DecidableEq, Repr

/-- What a flush meets. -/
inductive FlushRule where
  | succeeds
  | fails (f : Failure)
  /-- The channel buffers, and only bytes held back make the flush fail. -/
  | failsOnceWritten (f : Failure)
  deriving DecidableEq, Repr

structure Output where
  events : List OutputEvent := []
  standing : Option SteadyFailure := none
  flushRule : FlushRule := .succeeds
  written : Array UInt8 := #[]
  /-- Write calls made so far, failed ones included. -/
  calls : Nat := 0
  flushes : Nat := 0
  deriving DecidableEq

namespace Output

/-- An output on which every write fails. -/
def broken (f : SteadyFailure) : Output :=
  { standing := some f }

/-- What a call meets once the script is used up. -/
def afterwards (standing : Option SteadyFailure) : OutputEvent :=
  match standing with
  | none => .taken
  | some f => .failed f.val

/-- One write call of one byte. -/
def call (b : UInt8) (o : Output) : OutputEvent × Output :=
  match o with
  | ⟨events, standing, flushRule, written, calls, flushes⟩ =>
    let (event, rest) := match events with
      | [] => (afterwards standing, [])
      | e :: rest => (e, rest)
    let written := match event with
      | .taken => written.push b
      | _ => written
    (event, ⟨rest, standing, flushRule, written, calls + 1, flushes⟩)

/-- Drops the interruptions at the front of a script, with their number. -/
def skipInterrupted : List OutputEvent → Nat × List OutputEvent
  | .failed f :: rest =>
    if f.isInterrupted then
      let (n, rest) := skipInterrupted rest
      (n + 1, rest)
    else (0, .failed f :: rest)
  | events => (0, events)

/-- Writes one byte, calling again after each interruption. A call that takes nothing is a
failure. -/
def writeByte (b : UInt8) (o : Output) : Except Failure Unit × Output :=
  match o with
  | ⟨events, standing, flushRule, written, calls, flushes⟩ =>
    let (interrupted, events) := skipInterrupted events
    let calls := calls + interrupted
    match events with
    | [] =>
      match standing with
      | none => (.ok (), ⟨[], standing, flushRule, written.push b, calls + 1, flushes⟩)
      | some f => (.error f.val, ⟨[], standing, flushRule, written, calls + 1, flushes⟩)
    | .taken :: rest => (.ok (), ⟨rest, standing, flushRule, written.push b, calls + 1, flushes⟩)
    | .refused :: rest =>
      (.error Failure.incompleteWrite, ⟨rest, standing, flushRule, written, calls + 1, flushes⟩)
    | .failed f :: rest => (.error f, ⟨rest, standing, flushRule, written, calls + 1, flushes⟩)

def flush (o : Output) : Except Failure Unit × Output :=
  let result := match o.flushRule with
    | .succeeds => .ok ()
    | .fails f => .error f
    | .failsOnceWritten f => if o.written.isEmpty then .ok () else .error f
  (result, { o with flushes := o.flushes + 1 })

end Output

end TapeLang
