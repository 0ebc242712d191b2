import TapeLang.X86.Decoding

/-!
# Code in memory

Code is bytes that are only read. The instructions starting at each offset are decoded once, when the
code is placed, and looked up afterwards.
-/

namespace TapeLang.X86

/-- No instruction is longer. -/
def longestInstruction : Nat := 15

/-- The instruction that starts at an offset, and its length. -/
def decodeAt (bytes : Array UInt8) (offset : Nat) : Option (Instr × Nat) :=
  let window := (bytes.extract offset (offset + longestInstruction)).toList
  match decode window with
  | some (i, rest) => some (i, window.length - rest.length)
  | none => none

def decodeTable (bytes : Array UInt8) : Array (Option (Instr × Nat)) :=
  (Array.range bytes.size).map (decodeAt bytes)

structure Code where
  base : UInt64
  bytes : Array UInt8
  table : Array (Option (Instr × Nat))
  table_eq : table = decodeTable bytes

namespace Code

def place (base : UInt64) (bytes : Array UInt8) : Code :=
  ⟨base, bytes, decodeTable bytes, rfl⟩

def load? (c : Code) (a : UInt64) : Option UInt8 :=
  c.bytes[(a - c.base).toNat]?

/-- The instruction at an address, and its length. -/
def fetch? (c : Code) (a : UInt64) : Option (Instr × Nat) :=
  c.table.getD (a - c.base).toNat none

theorem fetch?_eq (c : Code) (a : UInt64) (h : (a - c.base).toNat < c.bytes.size) :
    c.fetch? a = decodeAt c.bytes (a - c.base).toNat := by
  simp [fetch?, c.table_eq, decodeTable, h]

end Code

end TapeLang.X86
