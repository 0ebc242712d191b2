import TapeLang.Program
import TapeLang.Tape
import TapeLang.EndOfInput
import TapeLang.Channel.Input
import TapeLang.Channel.Output

/-!
# The interpreter

One instruction at a time, by index. A run ends when the index leaves the program, when a move is
refused, or when a channel fails.
-/

namespace TapeLang

inductive Fault where
  | outOfTape (index pointer : Nat)
  | channel (f : Failure)
  deriving DecidableEq, Repr

namespace Fault

def message : Fault → String
  | .outOfTape index pointer =>
    "tape bounds exceeded at instruction " ++ toString index
      ++ " (pointer " ++ toString pointer ++ ")"
  | .channel f => "i/o error: " ++ f.text

/-- Faults at one place, or channel failures of one kind. -/
def sameOutcome : Fault → Fault → Bool
  | .outOfTape i p, .outOfTape j q => i == j && p == q
  | .channel f, .channel g => f.kind == g.kind
  | _, _ => false

end Fault

/-- How a run ended. -/
inductive Ending where
  | finished
  | faulted (f : Fault)
  /-- The current cell of a tape without cells was used. -/
  | noCell
  deriving DecidableEq, Repr

namespace Interpreter

structure State where
  tape : Tape
  cursor : Nat
  input : Input
  output : Output
  deriving DecidableEq

inductive Step where
  | next (s : State)
  | stop (e : Ending) (s : State)
  deriving DecidableEq

def readCell (policy : EndOfInput) : State → Step
  | ⟨tape, cursor, input, output⟩ =>
    match input.readByte with
    | (.error f, input) => .stop (.faulted (.channel f)) ⟨tape, cursor, input, output⟩
    | (.ok b?, input) =>
      match b?.or policy.value? with
      | none => .next ⟨tape, cursor + 1, input, output⟩
      | some b =>
        if tape.pointer < tape.cells.size then
          .next ⟨tape.set b, cursor + 1, input, output⟩
        else .stop .noCell ⟨tape, cursor, input, output⟩

def writeCell : State → Step
  | ⟨tape, cursor, input, output⟩ =>
    match tape.get? with
    | none => .stop .noCell ⟨tape, cursor, input, output⟩
    | some b =>
      match output.writeByte b with
      | (.error f, output) => .stop (.faulted (.channel f)) ⟨tape, cursor, input, output⟩
      | (.ok (), output) => .next ⟨tape, cursor + 1, input, output⟩

/-- Goes to `target` if the current cell satisfies `test`. -/
def jumpIf (test : UInt8 → Bool) (target : Nat) : State → Step
  | ⟨tape, cursor, input, output⟩ =>
    match tape.get? with
    | none => .stop .noCell ⟨tape, cursor, input, output⟩
    | some b => .next ⟨tape, if test b then target else cursor + 1, input, output⟩

def execute (policy : EndOfInput) (i : Instruction) (s : State) : Step :=
  match i with
  | .move d =>
    match s.tape.move? d.toInt64 with
    | some tape => .next { s with tape, cursor := s.cursor + 1 }
    | none => .stop (.faulted (.outOfTape s.cursor s.tape.pointer)) s
  | .add d =>
    match s with
    | ⟨tape, cursor, input, output⟩ =>
      if tape.pointer < tape.cells.size then
        .next ⟨tape.add d, cursor + 1, input, output⟩
      else .stop .noCell ⟨tape, cursor, input, output⟩
  | .input => readCell policy s
  | .output => writeCell s
  | .loopOpen target => jumpIf (· == 0) target s
  | .loopClose target => jumpIf (· != 0) target s

def step (p : Program) (policy : EndOfInput) (s : State) : Step :=
  match p.get? s.cursor with
  | none => .stop .finished s
  | some i => execute policy i s

/-- Runs for at most `fuel` steps; `none` if the run has not ended by then. -/
def runFrom (p : Program) (policy : EndOfInput) : (fuel : Nat) → State → Option (Ending × State)
  | 0, _ => none
  | fuel + 1, s =>
    match step p policy s with
    | .next s => runFrom p policy fuel s
    | .stop e s => some (e, s)

/-- A run that has ended is not changed by more fuel. -/
theorem runFrom_add {p : Program} {policy : EndOfInput} {fuel : Nat} {s : State}
    {r : Ending × State} (h : runFrom p policy fuel s = some r) (extra : Nat) :
    runFrom p policy (fuel + extra) s = some r := by
  induction fuel generalizing s with
  | zero => simp [runFrom] at h
  | succ fuel ih =>
    rw [Nat.succ_add]
    unfold runFrom at h ⊢
    split at h
    next next hstep => simpa only [hstep] using ih h
    next hstep => simpa only [hstep] using h

/-- All fuels that suffice give the same result. -/
theorem runFrom_unique {p : Program} {policy : EndOfInput} {m n : Nat} {s : State}
    {r r' : Ending × State} (h : runFrom p policy m s = some r)
    (h' : runFrom p policy n s = some r') : r = r' := by
  have hm := runFrom_add h n
  have hn := runFrom_add h' m
  rw [Nat.add_comm n m, hm] at hn
  exact Option.some.inj hn

/-- Runs a program from its first instruction. -/
def run (fuel : Nat) (p : Program) (policy : EndOfInput) (tape : Tape) (input : Input)
    (output : Output) : Option (Ending × State) :=
  runFrom p policy fuel ⟨tape, 0, input, output⟩

end Interpreter

end TapeLang
