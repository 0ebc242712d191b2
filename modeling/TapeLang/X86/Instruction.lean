import TapeLang.X86.Register
import TapeLang.Breach

/-!
# Instruction forms

The forms of x86-64 instructions that generated code is made of.
-/

namespace TapeLang.X86

/-- The operand `[base + index + disp]`. -/
structure Mem where
  base : Reg
  index : Option Reg := none
  disp : Int32 := 0
  deriving DecidableEq, Repr

/-- Arithmetic with an immediate. -/
inductive Alu where
  | add | sub | cmp
  deriving DecidableEq, Repr

/-- The opcode extension of an arithmetic operation. -/
def Alu.digit : Alu → Nat
  | add => 0 | sub => 5 | cmp => 7

def Alu.ofDigit? : Nat → Option Alu
  | 0 => some add | 5 => some sub | 7 => some cmp | _ => none

/-- Branch conditions. -/
inductive Cond where
  | below | aboveOrEqual | equal | notEqual | sign | lessOrEqual
  deriving DecidableEq, Repr

def Cond.code : Cond → Nat
  | below => 2 | aboveOrEqual => 3 | equal => 4 | notEqual => 5 | sign => 8 | lessOrEqual => 14

def Cond.ofCode? : Nat → Option Cond
  | 2 => some below | 3 => some aboveOrEqual | 4 => some equal | 5 => some notEqual
  | 8 => some sign | 14 => some lessOrEqual | _ => none

inductive Instr where
  | push (r : Reg)
  | pop (r : Reg)
  | ret
  | syscall
  | mov (dst src : Reg)
  | load (dst : Reg) (m : Mem)
  | store (m : Mem) (src : Reg)
  /-- Stores the low byte of `src`. -/
  | storeByte (m : Mem) (src : Reg)
  /-- Loads a byte and clears the rest of `dst`. -/
  | loadByte (dst : Reg) (m : Mem)
  /-- Loads 32 bits and clears the upper half of `dst`. -/
  | movImm32 (dst : Reg) (imm : UInt32)
  | movImm64 (dst : Reg) (imm : UInt64)
  | aluImm (op : Alu) (dst : Reg) (imm : Int32)
  /-- On the lower half of `dst`; the upper half is cleared unless `op` only compares. -/
  | aluImm32 (op : Alu) (dst : Reg) (imm : Int32)
  | aluByteImm (op : Alu) (m : Mem) (imm : UInt8)
  | cmp (a b : Reg)
  | test (a b : Reg)
  | test32 (a b : Reg)
  | xor32 (dst src : Reg)
  | lea (dst : Reg) (m : Mem)
  | callMem (m : Mem)
  /-- The displacement counts from the end of the instruction. -/
  | jmp (rel : Int32)
  | jcc (c : Cond) (rel : Int32)
  deriving DecidableEq, Repr

namespace Instr

def mem? : Instr → Option Mem
  | .load _ m | .store m _ | .storeByte m _ | .loadByte _ m | .aluByteImm _ m _ | .lea _ m
  | .callMem m => some m
  | _ => none

/-- What keeps an instruction from being encoded: only four registers have a low byte in every
encoding, and `rsp` cannot be an index. -/
def breach? (i : Instr) : Option Breach :=
  let source : Option Breach := match i with
    | .storeByte _ src => if src.code < 4 then none else some .wideByteSource
    | _ => none
  let index : Option Breach := match i.mem? with
    | some m => if m.index = some .rsp then some .stackPointerIndex else none
    | none => none
  source.or index

end Instr

end TapeLang.X86
