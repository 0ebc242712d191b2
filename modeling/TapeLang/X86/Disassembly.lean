import TapeLang.X86.Decoding

/-!
# Disassembly

Code read from front to back, each instruction where the one before it ends.
-/

namespace TapeLang.X86

/-- The instructions of `bytes`, which start at `offset`, each with the offset of its end. -/
def sweep : (bound offset : Nat) → Bytes → Option (List (Instr × Nat))
  | _, _, [] => some []
  | 0, _, _ :: _ => none
  | bound + 1, offset, bytes =>
    match decode bytes with
    | none => none
    | some (i, rest) =>
      let stop := offset + (bytes.length - rest.length)
      (sweep bound stop rest).map ((i, stop) :: ·)

/-- The instructions of a byte string and where each of them ends. Each takes a byte at least, so there
are no more of them than bytes. -/
def disassemble (bytes : Bytes) : Option (List (Instr × Nat)) :=
  sweep bytes.length 0 bytes

end TapeLang.X86
