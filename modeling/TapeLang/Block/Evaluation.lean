import TapeLang.Block.Basic
import TapeLang.Interpreter

/-!
# Evaluation of blocks

A loop is a `while`: as long as the current cell is not zero, its body is evaluated. There are no jumps;
indices only say where a refused move stands.
-/

namespace TapeLang

/-- What a program acts on. -/
structure World where
  tape : Tape
  input : Input
  output : Output
  deriving DecidableEq

namespace Action

/-- Stores a byte in the current cell, or at the end of the input what the policy says. -/
def receive (policy : EndOfInput) (tape : Tape) (b? : Option UInt8) : Tape :=
  match b?, policy with
  | some b, _ => tape.set b
  | none, .zero => tape.set 0
  | none, .unchanged => tape
  | none, .minusOne => tape.set 255

/-- Carries out the action at an index, or says what stopped it. -/
def perform (policy : EndOfInput) (index : Nat) (a : Action) (w : World) : Option Fault × World :=
  match a with
  | .move d =>
    match w.tape.move? d.toInt64 with
    | some tape => (none, { w with tape })
    | none => (some (.outOfTape index w.tape.pointer), w)
  | .add d => (none, { w with tape := w.tape.add d })
  | .input =>
    match w.input.readByte with
    | (.ok b?, left) => (none, { w with tape := receive policy w.tape b?, input := left })
    | (.error f, left) => (some (.channel f), { w with input := left })
  | .output =>
    match w.output.writeByte (w.tape.get?.getD 0) with
    | (.ok (), left) => (none, { w with output := left })
    | (.error f, left) => (some (.channel f), { w with output := left })

end Action

namespace Block

/-- `Evaluates policy start b w stop w'`: the block `b`, whose first command has the index `start`, takes
the world `w` to `w'` and is stopped by the fault `stop`, if any. -/
inductive Evaluates (policy : EndOfInput) : Nat → Block → World → Option Fault → World → Prop where
  | done {start : Nat} {w : World} : Evaluates policy start .done w none w
  | act {start : Nat} {a : Action} {rest : Block} {w w₁ w₂ : World} {stop : Option Fault}
      (first : a.perform policy start w = (none, w₁))
      (tail : Evaluates policy (start + 1) rest w₁ stop w₂) :
      Evaluates policy start (.act a rest) w stop w₂
  | actStopped {start : Nat} {a : Action} {rest : Block} {w w₁ : World} {f : Fault}
      (first : a.perform policy start w = (some f, w₁)) :
      Evaluates policy start (.act a rest) w (some f) w₁
  | loopLeft {start : Nat} {body rest : Block} {w w₁ : World} {stop : Option Fault}
      (zero : w.tape.get? = some 0)
      (tail : Evaluates policy (start + body.size + 2) rest w stop w₁) :
      Evaluates policy start (.loop body rest) w stop w₁
  | loopAgain {start : Nat} {body rest : Block} {b : UInt8} {w w₁ w₂ : World}
      {stop : Option Fault}
      (cell : w.tape.get? = some b) (nonzero : b ≠ 0)
      (round : Evaluates policy (start + 1) body w none w₁)
      (tail : Evaluates policy start (.loop body rest) w₁ stop w₂) :
      Evaluates policy start (.loop body rest) w stop w₂
  | loopStopped {start : Nat} {body rest : Block} {b : UInt8} {w w₁ : World} {f : Fault}
      (cell : w.tape.get? = some b) (nonzero : b ≠ 0)
      (round : Evaluates policy (start + 1) body w (some f) w₁) :
      Evaluates policy start (.loop body rest) w (some f) w₁

end Block

end TapeLang
