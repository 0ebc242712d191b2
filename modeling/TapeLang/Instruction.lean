/-!
# Instructions of the tape language

Eight symbols, six kinds of instruction. A loop's ends carry the index to jump to, which lies just
behind the partner.
-/

namespace TapeLang

inductive Instruction where
  | move (delta : Int8)
  | add (delta : Int8)
  | input
  | output
  | loopOpen (target : Nat)
  | loopClose (target : Nat)
  deriving DecidableEq, Repr

namespace Instruction

/-- The instruction a symbol stands for, with loop targets still zero. -/
def ofSymbol? : Char → Option Instruction
  | '>' => some (.move 1)
  | '<' => some (.move (-1))
  | '+' => some (.add 1)
  | '-' => some (.add (-1))
  | ',' => some .input
  | '.' => some .output
  | '[' => some (.loopOpen 0)
  | ']' => some (.loopClose 0)
  | _ => none

/-- The symbol of an instruction; moves and additions have one only for a delta of one. -/
def symbol? : Instruction → Option Char
  | .move d => if d = 1 then some '>' else if d = -1 then some '<' else none
  | .add d => if d = 1 then some '+' else if d = -1 then some '-' else none
  | .input => some ','
  | .output => some '.'
  | .loopOpen _ => some '['
  | .loopClose _ => some ']'

def target? : Instruction → Option Nat
  | .loopOpen t => some t
  | .loopClose t => some t
  | _ => none

/-- A number with its sign always written. -/
def signed (d : Int8) : String :=
  if 0 ≤ d.toInt then "+" ++ toString d.toInt else toString d.toInt

def text : Instruction → String
  | .move d => "MOVE " ++ signed d
  | .add d => "ADD " ++ signed d
  | .input => "INPUT"
  | .output => "OUTPUT"
  | .loopOpen t => "LOOP_OPEN -> " ++ toString t
  | .loopClose t => "LOOP_CLOSE -> " ++ toString t

/-- The instruction with its loop target moved up by `n`. -/
def shift (n : Nat) : Instruction → Instruction
  | .loopOpen t => .loopOpen (t + n)
  | .loopClose t => .loopClose (t + n)
  | i => i

theorem symbol?_ofSymbol? {c : Char} {i : Instruction} (h : ofSymbol? c = some i) :
    i.symbol? = some c := by
  unfold ofSymbol? at h
  split at h <;> simp at h <;> subst h <;> rfl

end Instruction

end TapeLang
