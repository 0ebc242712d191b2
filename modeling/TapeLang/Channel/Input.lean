import TapeLang.Channel.Failure

/-!
# Input channels

An input is a script of what each read call meets. After the script every call ends the input, or
meets a failure that stands for ever.
-/

namespace TapeLang

inductive InputEvent where
  | byte (b : UInt8)
  | ended
  | failed (f : Failure)
  deriving DecidableEq, Repr

structure Input where
  events : List InputEvent := []
  standing : Option SteadyFailure := none
  /-- Read calls made so far, failed ones included. -/
  calls : Nat := 0
  deriving DecidableEq

namespace Input

def ofBytes (bytes : List UInt8) : Input :=
  { events := bytes.map .byte }

/-- An input on which every call fails. -/
def broken (f : SteadyFailure) : Input :=
  { standing := some f }

/-- What a call meets once the script is used up. -/
def afterwards (standing : Option SteadyFailure) : InputEvent :=
  match standing with
  | none => .ended
  | some f => .failed f.val

/-- One read call. -/
def call (i : Input) : InputEvent × Input :=
  match i.events with
  | [] => (afterwards i.standing, { i with calls := i.calls + 1 })
  | e :: rest => (e, { i with events := rest, calls := i.calls + 1 })

/-- Reads one byte, calling again after each interruption: the byte, `none` at the end of the
input, or the failure met. -/
def readByte (i : Input) : Except Failure (Option UInt8) × Input :=
  go i.standing i.events i.calls
where
  go (standing : Option SteadyFailure) :
      List InputEvent → Nat → Except Failure (Option UInt8) × Input
    | [], calls =>
      let result := match standing with
        | none => .ok none
        | some f => .error f.val
      (result, ⟨[], standing, calls + 1⟩)
    | .byte b :: rest, calls => (.ok (some b), ⟨rest, standing, calls + 1⟩)
    | .ended :: rest, calls => (.ok none, ⟨rest, standing, calls + 1⟩)
    | .failed f :: rest, calls =>
      if f.isInterrupted then go standing rest (calls + 1)
      else (.error f, ⟨rest, standing, calls + 1⟩)

end Input

end TapeLang
