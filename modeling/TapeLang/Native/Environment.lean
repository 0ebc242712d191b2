import TapeLang.Assembly.Listing

/-!
# Environments of generated code

An environment says how code enters, reads, writes, notes where a move was refused, and leaves.
Everything else about the code is the same in every environment. The current cell is at
`[rbx + r12]`, and the pointer `r12` stays below the capacity in `r13`.
-/

namespace TapeLang.Native

open X86 Assembly

/-- The address of the first cell. -/
def tapeReg : Reg := .rbx

/-- The index of the current cell. -/
def pointerReg : Reg := .r12

/-- The number of cells. -/
def capacityReg : Reg := .r13

/-- The current cell. -/
def cell : Mem := { base := tapeReg, index := some pointerReg }

/-- Where a hook is asked for its code: for the instruction at which index, at which offset, and how many
labels there are already. -/
structure Site where
  index : Nat
  offset : Nat
  next : Nat
  deriving DecidableEq, Repr

/-- The site behind some items, when `next` labels are in use. -/
def Site.past (s : Site) (items : List (Item Label)) (next : Nat) : Site :=
  { s with offset := s.offset + sizes items, next }

/-- The hooks of an environment. The code of a hook may be another one at every site. -/
structure Environment where
  /-- The first code of all. -/
  prologue : List Line
  /-- Leaves a byte in `rax`. It knows the labels `eof` and `io_error`. -/
  readByte : Site → List Line
  /-- Writes the current cell. It knows the label `io_error`. -/
  writeByte : Site → List Line
  /-- Notes the index of a refused move. -/
  recordFault : Site → List Line
  /-- Binds the exits `ok`, `bounds` and `io`. -/
  epilogue : Site → List Line

/-- Lines without labels. -/
def plain (instrs : List Instr) : List Line :=
  instrs.map fun i => .item (.plain i)

def branch (c : Cond) (name : String) : Line :=
  .item (.branch c name)

def jump (name : String) : Line :=
  .item (.jump name)

def bind (name : String) : Line :=
  .item (.bind name)

end TapeLang.Native
