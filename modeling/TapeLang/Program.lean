import TapeLang.Breach
import TapeLang.Instruction

/-!
# Programs

A program is its instructions in order. Nothing about loop targets is assumed of it:
`isWellFormed` decides whether the loops match.
-/

namespace TapeLang

structure Program where
  instructions : Array Instruction
  deriving DecidableEq, Repr

namespace Program

def size (p : Program) : Nat :=
  p.instructions.size

def get? (p : Program) (i : Nat) : Option Instruction :=
  p.instructions[i]?

/-- Lets the open at `i` take its partner. There is none to take if the target is not just behind a
close further on that points back just behind the open, or if that close was taken before. -/
def takePartner (p : Program) (i target : Nat) (claimed : Array Bool) :
    Except Breach (Option (Array Bool)) :=
  let j := target - 1
  if target = 0 ∨ j ≤ i ∨ p.size ≤ j then .ok none
  else do
    if ← entryAt claimed j then return none
    match ← entryAt p.instructions j with
    | .loopClose back => if back = i + 1 then return some (← replaceAt claimed j true) else return none
    | _ => return none

/-- Lets every open take its partner in order; `none` if one of them has none to take. -/
def claimPartners (p : Program) :
    List Instruction → Nat → Array Bool → Except Breach (Option (Array Bool))
  | [], _, claimed => .ok (some claimed)
  | .loopOpen target :: rest, i, claimed => do
    match ← p.takePartner i target claimed with
    | some claimed => claimPartners p rest (i + 1) claimed
    | none => return none
  | _ :: rest, i, claimed => claimPartners p rest (i + 1) claimed

/-- Takes the partners of all opens, then looks whether a close is left. -/
def checkLoops (p : Program) : Except Breach Bool := do
  match ← p.claimPartners p.instructions.toList 0 (Array.replicate p.size false) with
  | none => return false
  | some claimed =>
    return (p.instructions.toList.zip claimed.toList).all fun
      | (.loopClose _, taken) => taken
      | _ => true

/-- Whether opens and closes are paired off, each pointing just behind its partner. -/
def isWellFormed (p : Program) : Bool :=
  match p.checkLoops with
  | .ok paired => paired
  | .error _ => false

/-- The index right aligned in six columns, two blanks and the instruction. -/
def listingLine (i : Nat) (instr : Instruction) : String :=
  let index := toString i
  String.ofList (List.replicate (6 - index.length) ' ') ++ index ++ "  " ++ instr.text ++ "\n"

def listing (p : Program) : String :=
  p.instructions.toList.zipIdx.foldl (fun text (instr, i) => text ++ listingLine i instr) ""

/-- The symbols of a program, one for each instruction that has one. -/
def render (p : Program) : String :=
  String.ofList (p.instructions.toList.filterMap Instruction.symbol?)

end Program

end TapeLang
