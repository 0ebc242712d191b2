import TapeLang.X86.Encoding

/-!
# Assembly items

An item is an instruction, a branch to a label, or the place where a label is bound. Branches have
one form only, with a displacement of four bytes, so the size of an item does not depend on where
its label is.
-/

namespace TapeLang.Assembly

open X86

inductive Item (α : Type) where
  | bind (l : α)
  | plain (i : Instr)
  /-- Loads the address of the tape, which is known only later. -/
  | tapeAddress (dst : Reg)
  | jump (l : α)
  | branch (c : Cond) (l : α)
  deriving DecidableEq, Repr

namespace Item

variable {α β : Type}

/-- The bytes of an item before labels and addresses are known. -/
def template : Item α → Bytes
  | .bind _ => []
  | .plain i => i.encode
  | .tapeAddress dst => (Instr.movImm64 dst 0).encode
  | .jump _ => (Instr.jmp 0).encode
  | .branch c _ => (Instr.jcc c 0).encode

def size (i : Item α) : Nat :=
  i.template.length

def breach? : Item α → Option Breach
  | .plain i => i.breach?
  | _ => none

/-- Replaces the label of an item, if the replacement is defined on it. -/
def mapLabel? (f : α → Option β) : Item α → Option (Item β)
  | .bind l => (f l).map .bind
  | .plain i => some (.plain i)
  | .tapeAddress dst => some (.tapeAddress dst)
  | .jump l => (f l).map .jump
  | .branch c l => (f l).map (.branch c)

end Item

end TapeLang.Assembly
