import TapeLang.Assembly.Item

/-!
# Assembling

Labels are numbers. An assembler appends the bytes of each item, with zeros for a displacement that is
not known yet, and remembers which label it leads to. Once all items are there, it fills these
displacements in, one after the other, from where each label was bound last.
-/

namespace TapeLang.Assembly

open X86

abbrev Label := Nat

/-- The number of bytes some items take. -/
def sizes : List (Item Label) → Nat
  | [] => 0
  | item :: rest => item.size + sizes rest

inductive AssembleError where
  | unboundLabel (l : Label)
  /-- The displacement at this offset does not fit in 32 bits. -/
  | branchOutOfRange (offset : Nat)
  deriving DecidableEq, Repr

structure Assembled where
  code : Bytes
  /-- Offsets of the tape addresses left open, eight bytes each. -/
  relocations : List Nat
  /-- The offset of every label. -/
  labels : List Nat
  deriving DecidableEq, Repr

/-- Four bytes for a displacement: where they start, and the label they lead to. -/
structure Fixup where
  offset : Nat
  label : Label
  deriving DecidableEq, Repr

structure Assembler where
  code : Array UInt8 := #[]
  /-- Where each label was bound last. -/
  labels : Array (Option Nat) := #[]
  /-- The displacements still to be filled in. -/
  fixups : Array Fixup := #[]
  /-- Offsets of the tape addresses left open. -/
  relocations : Array Nat := #[]
  deriving DecidableEq, Repr

namespace Assembler

/-- What an assembler is asked to do: to make a label, or to add an item over labels it has made. -/
inductive Call where
  | newLabel
  | emit (item : Item Label)
  deriving DecidableEq, Repr

def newLabel : Assembler → Assembler
  | ⟨code, labels, fixups, relocations⟩ => ⟨code, labels.push none, fixups, relocations⟩

/-- Binds a label to the end of the code, also if it was bound before. -/
def bind (l : Label) : Assembler → Assembler
  | ⟨code, labels, fixups, relocations⟩ =>
    let offset := code.size
    ⟨code, labels.setIfInBounds l (some offset), fixups, relocations⟩

def append (bytes : Bytes) : Assembler → Assembler
  | ⟨code, labels, fixups, relocations⟩ => ⟨code ++ bytes, labels, fixups, relocations⟩

/-- Appends zeros in place of a displacement. -/
def appendFixup (l : Label) : Assembler → Assembler
  | ⟨code, labels, fixups, relocations⟩ =>
    let offset := code.size
    ⟨code ++ int32Bytes 0, labels, fixups.push ⟨offset, l⟩, relocations⟩

/-- Appends zeros in place of the address of the tape. -/
def appendRelocation : Assembler → Assembler
  | ⟨code, labels, fixups, relocations⟩ =>
    let offset := code.size
    ⟨code ++ Bytes.ofUInt64 0, labels, fixups, relocations.push offset⟩

def emit (a : Assembler) : Item Label → Assembler
  | .bind l => a.bind l
  | .plain i => a.append i.encode
  | .tapeAddress dst => (a.append (opLow true 0xB8 dst)).appendRelocation
  | .jump l => (a.append [0xE9]).appendFixup l
  | .branch c l => (a.append [0x0F, UInt8.ofNat (0x80 + c.code)]).appendFixup l

def call (a : Assembler) : Call → Assembler
  | .newLabel => a.newLabel
  | .emit item => a.emit item

/-- The assembler after some calls. -/
def after (calls : List Call) : Assembler :=
  calls.foldl call {}

end Assembler

/-- The displacement from the end of the field at `offset` to a label. -/
def displacementTo (bound : Array (Option Nat)) (l : Label) (offset : Nat) :
    Except AssembleError Int32 :=
  match bound.getD l none with
  | none => .error (.unboundLabel l)
  | some target =>
    let rel : Int := target - (offset + 4 : Nat)
    if -0x80000000 ≤ rel ∧ rel < 0x80000000 then .ok (Int32.ofInt rel)
    else .error (.branchOutOfRange offset)

/-- Writes bytes over those at an offset. -/
def writeAt (code : Array UInt8) (offset : Nat) : Bytes → Array UInt8
  | [] => code
  | b :: bs => writeAt (code.setIfInBounds offset b) (offset + 1) bs

/-- Fills in a displacement. -/
def Fixup.patch (bound : Array (Option Nat)) (code : Array UInt8) (f : Fixup) :
    Except AssembleError (Array UInt8) :=
  (displacementTo bound f.label f.offset).map fun rel => writeAt code f.offset (int32Bytes rel)

/-- The offsets of all labels, or the first that is not bound. -/
def labelOffsets (bound : Array (Option Nat)) : Except AssembleError (List Nat) :=
  bound.toList.zipIdx.mapM fun (offset?, l) =>
    match offset? with
    | some offset => .ok offset
    | none => .error (.unboundLabel l)

/-- Fills in all displacements, in the order the branches were added. -/
def Assembler.finish : Assembler → Except AssembleError Assembled
  | ⟨code, labels, fixups, relocations⟩ => do
    let code ← fixups.toList.foldlM (Fixup.patch labels) code
    let offsets ← labelOffsets labels
    return ⟨code.toList, relocations.toList, offsets⟩

/-- Assembles items over the labels below `labels`, which are made first. -/
def assemble (labels : Nat) (items : List (Item Label)) : Except AssembleError Assembled :=
  (Assembler.after (List.replicate labels .newLabel ++ items.map .emit)).finish

end TapeLang.Assembly
