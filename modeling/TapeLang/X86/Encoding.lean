import TapeLang.X86.Instruction
import TapeLang.Bytes

/-!
# Instruction encoding

An instruction is an optional extension byte, the opcode, the operand bytes and the immediate.
-/

namespace TapeLang.X86

def bit (b : Bool) (weight : Nat) : Nat :=
  if b then weight else 0

/-- The extension byte, left out when it extends nothing. -/
def extension (w r x b : Bool) : Bytes :=
  let bits := bit w 8 + bit r 4 + bit x 2 + bit b 1
  if bits = 0 then [] else [UInt8.ofNat (0x40 + bits)]

/-- The byte of a mode and two three-bit fields. -/
def fields (mode reg rm : Nat) : UInt8 :=
  UInt8.ofNat (64 * mode + 8 * reg + rm)

def int32Bytes (i : Int32) : Bytes :=
  Bytes.ofUInt32 i.toUInt32

def fitsByte (i : Int32) : Bool :=
  -128 ≤ i.toInt && i.toInt ≤ 127

/-- The mode of a displacement and its bytes: none, one or four. A base whose low bits are those of
`rbp` has no form without displacement. -/
def displacement (base : Reg) (disp : Int32) : Nat × Bytes :=
  if disp = 0 ∧ base.low ≠ 5 then (0, [])
  else if fitsByte disp then (1, [disp.toInt8.toUInt8])
  else (2, int32Bytes disp)

/-- The operand bytes of a memory operand. An index, or a base whose low bits are those of `rsp`,
needs a second byte, in which index four means none. -/
def memBytes (reg : Nat) (m : Mem) : Bytes :=
  let (mode, disp) := displacement m.base m.disp
  match m.index with
  | some index => fields mode (reg % 8) 4 :: fields 0 index.low m.base.low :: disp
  | none =>
    if m.base.low = 4 then fields mode (reg % 8) 4 :: fields 0 4 4 :: disp
    else fields mode (reg % 8) m.base.low :: disp

def Mem.indexExt (m : Mem) : Bool :=
  match m.index with
  | some index => index.ext
  | none => false

/-- An operation between a register or opcode extension and memory. -/
def opMem (w : Bool) (opcode : Bytes) (reg : Nat) (m : Mem) : Bytes :=
  extension w (8 ≤ reg) m.indexExt m.base.ext ++ opcode ++ memBytes reg m

/-- An operation between a register or opcode extension and a register. -/
def opReg (w : Bool) (opcode : Bytes) (reg : Nat) (rm : Reg) : Bytes :=
  extension w (8 ≤ reg) false rm.ext ++ opcode ++ [fields 3 (reg % 8) rm.low]

/-- An operation whose opcode holds its register. -/
def opLow (w : Bool) (opcode : Nat) (r : Reg) : Bytes :=
  extension w false false r.ext ++ [UInt8.ofNat (opcode + r.low)]

def Instr.encode : Instr → Bytes
  | .push r => opLow false 0x50 r
  | .pop r => opLow false 0x58 r
  | .ret => [0xC3]
  | .syscall => [0x0F, 0x05]
  | .mov dst src => opReg true [0x89] src.code dst
  | .load dst m => opMem true [0x8B] dst.code m
  | .store m src => opMem true [0x89] src.code m
  | .storeByte m src => opMem false [0x88] src.code m
  | .loadByte dst m => opMem false [0x0F, 0xB6] dst.code m
  | .movImm32 dst imm => opLow false 0xB8 dst ++ Bytes.ofUInt32 imm
  | .movImm64 dst imm => opLow true 0xB8 dst ++ Bytes.ofUInt64 imm
  | .aluImm op dst imm => opReg true [0x81] op.digit dst ++ int32Bytes imm
  | .aluImm32 op dst imm => opReg false [0x81] op.digit dst ++ int32Bytes imm
  | .aluByteImm op m imm => opMem false [0x80] op.digit m ++ [imm]
  | .cmp a b => opReg true [0x39] b.code a
  | .test a b => opReg true [0x85] b.code a
  | .test32 a b => opReg false [0x85] b.code a
  | .xor32 dst src => opReg false [0x31] src.code dst
  | .lea dst m => opMem true [0x8D] dst.code m
  | .callMem m => opMem false [0xFF] 2 m
  | .jmp rel => 0xE9 :: int32Bytes rel
  | .jcc c rel => 0x0F :: UInt8.ofNat (0x80 + c.code) :: int32Bytes rel

end TapeLang.X86
