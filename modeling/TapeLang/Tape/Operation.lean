import TapeLang.Tape

/-!
# Operations on a tape

Everything that can be done to a tape from outside, one operation after the other, with what each of them
answers. An operation that is refused leaves the tape as it is.
-/

namespace TapeLang.Tape

inductive Operation where
  /-- Moves the pointer, for the instruction at an index. -/
  | move (delta : Int64) (index : Nat)
  | add (delta : Int8)
  | set (v : UInt8)
  | get
  | reset
  | setPointer (pointer : Nat)
  /-- Writes a cell wherever the pointer is. -/
  | poke (i : Nat) (v : UInt8)
  deriving DecidableEq, Repr

namespace Operation

/-- Whether the current cell is read or written. -/
def usesCell : Operation → Bool
  | .add _ => true
  | .set _ => true
  | .get => true
  | _ => false

/-- The answers of operations in a row, and the state behind them. -/
def runAll {σ α : Type} (step : σ → Operation → α × σ) (s : σ) : List Operation → List α × σ
  | [] => ([], s)
  | op :: rest =>
    let (answer, s) := step s op
    let (answers, s) := runAll step s rest
    (answer :: answers, s)

end Operation

/-- What an operation answers, for pointers and cells of some types. -/
inductive Answer (π β : Type) where
  | done
  | cell (value : β)
  /-- A move that was refused, with the index of its instruction and where the pointer stays. -/
  | outOfTape (index : Nat) (pointer : π)
  /-- A place that is not on the tape. -/
  | refused
  /-- The current cell of a tape without cells was used. -/
  | noCell
  deriving DecidableEq, Repr

namespace Answer

variable {π π' β β' : Type}

def map (f : π → π') (g : β → β') : Answer π β → Answer π' β'
  | .done => .done
  | .cell value => .cell (g value)
  | .outOfTape index pointer => .outOfTape index (f pointer)
  | .refused => .refused
  | .noCell => .noCell

/-- Whether the operation was carried out. -/
def accepted : Answer π β → Bool
  | .done => true
  | .cell _ => true
  | _ => false

end Answer

/-- A change of the tape, with an answer for a change that is not made. -/
def change (t : Tape) (otherwise : Answer Nat UInt8) : Option Tape → Answer Nat UInt8 × Tape
  | some u => (.done, u)
  | none => (otherwise, t)

def perform (t : Tape) : Operation → Answer Nat UInt8 × Tape
  | .move delta index => t.change (.outOfTape index t.pointer) (t.move? delta)
  | .add delta => t.change .noCell (t.add? delta)
  | .set v => t.change .noCell (t.set? v)
  | .get =>
    match t.get? with
    | some b => (.cell b, t)
    | none => (.noCell, t)
  | .reset => (.done, t.reset)
  | .setPointer pointer => t.change .refused (t.setPointer? pointer)
  | .poke i v => t.change .refused (t.poke? i v)

def performAll (t : Tape) (ops : List Operation) : List (Answer Nat UInt8) × Tape :=
  Operation.runAll perform t ops

end TapeLang.Tape
