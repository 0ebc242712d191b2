import TapeLang.X86.Encoding

/-!
# Instruction decoding

Reads one instruction from the front of a byte string by the rules of the architecture: extension
byte, opcode, mode byte, scale byte, displacement, immediate. Forms outside `Instr` are refused.
-/

namespace TapeLang.X86

/-- The extension bits of an instruction, all clear when it has no extension byte. -/
structure Extension where
  present : Bool := false
  w : Bool := false
  r : Bool := false
  x : Bool := false
  b : Bool := false
  deriving DecidableEq, Repr

/-- Takes the extension byte off, if there is one. -/
def decodeExtension : Bytes → Extension × Bytes
  | [] => ({}, [])
  | first :: rest =>
    let n := first.toNat
    if n / 16 = 4 then
      (⟨true, n / 8 % 2 = 1, n / 4 % 2 = 1, n / 2 % 2 = 1, n % 2 = 1⟩, rest)
    else ({}, first :: rest)

/-- A register from its extension bit and its low bits. -/
def extended (ext : Bool) (low : Nat) : Reg :=
  .ofCode (bit ext 8 + low)

/-- The first `count` bytes as a number, and the rest. -/
def takeNat (count : Nat) (bytes : Bytes) : Option (Nat × Bytes) :=
  if count ≤ bytes.length then some (Bytes.toNat (bytes.take count), bytes.drop count) else none

def takeInt32 (bytes : Bytes) : Option (Int32 × Bytes) :=
  (takeNat 4 bytes).map fun (n, rest) => ((UInt32.ofNat n).toInt32, rest)

/-- The displacement that a mode announces. -/
def decodeDisplacement (mode : Nat) (bytes : Bytes) : Option (Int32 × Bytes) :=
  match mode, bytes with
  | 0, rest => some (0, rest)
  | 1, d :: rest => some (d.toInt8.toInt32, rest)
  | 2, rest => takeInt32 rest
  | _, _ => none

inductive Operand where
  | reg (r : Reg)
  | mem (m : Mem)
  deriving DecidableEq, Repr

/-- The memory operand behind a scale byte. Without a base, or with a scale other than one, it is
not of the form `Mem`. -/
def decodeScaled (ext : Extension) (mode : Nat) : Bytes → Option (Operand × Bytes)
  | [] => none
  | scaled :: rest =>
    let n := scaled.toNat
    let index := extended ext.x (n / 8 % 8)
    let index? := if index = .rsp then none else some index
    if n / 64 ≠ 0 ∨ (mode = 0 ∧ n % 8 = 5) then none
    else (decodeDisplacement mode rest).map fun (disp, rest) =>
      (.mem ⟨extended ext.b (n % 8), index?, disp⟩, rest)

/-- The register field and the operand of a mode byte. -/
def decodeOperand (ext : Extension) : Bytes → Option (Nat × Operand × Bytes)
  | [] => none
  | modeByte :: rest =>
    let n := modeByte.toNat
    let mode := n / 64
    let reg := bit ext.r 8 + n / 8 % 8
    let rm := n % 8
    if mode = 3 then some (reg, .reg (extended ext.b rm), rest)
    else if rm = 4 then (decodeScaled ext mode rest).map fun (m, rest) => (reg, m, rest)
    else if mode = 0 ∧ rm = 5 then none
    else (decodeDisplacement mode rest).map fun (disp, rest) =>
      (reg, .mem ⟨extended ext.b rm, none, disp⟩, rest)

/-- The instruction of an opcode whose operand is memory. -/
def ofMem? (ext : Extension) (opcode reg : Nat) (m : Mem) : Option Instr :=
  match opcode, ext.w with
  | 0x89, true => some (.store m (.ofCode reg))
  | 0x8B, true => some (.load (.ofCode reg) m)
  | 0x8D, true => some (.lea (.ofCode reg) m)
  | 0x88, false => if reg < 4 then some (.storeByte m (.ofCode reg)) else none
  | 0xFF, false => if reg % 8 = 2 then some (.callMem m) else none
  | _, _ => none

/-- The instruction of an opcode whose operand is a register. -/
def ofReg? (ext : Extension) (opcode reg : Nat) (rm : Reg) : Option Instr :=
  match opcode, ext.w with
  | 0x89, true => some (.mov rm (.ofCode reg))
  | 0x39, true => some (.cmp rm (.ofCode reg))
  | 0x85, true => some (.test rm (.ofCode reg))
  | 0x85, false => some (.test32 rm (.ofCode reg))
  | 0x31, false => some (.xor32 rm (.ofCode reg))
  | _, _ => none

/-- Arithmetic with an immediate behind the operand. -/
def decodeAlu (ext : Extension) (opcode : Nat) (bytes : Bytes) : Option (Instr × Bytes) := do
  let (reg, operand, rest) ← decodeOperand ext bytes
  let op ← Alu.ofDigit? (reg % 8)
  match opcode, operand, ext.w with
  | 0x81, .reg r, w =>
    let (imm, rest) ← takeInt32 rest
    return (if w then .aluImm op r imm else .aluImm32 op r imm, rest)
  | 0x80, .mem m, false =>
    let (imm, rest) ← takeNat 1 rest
    return (.aluByteImm op m (UInt8.ofNat imm), rest)
  | _, _, _ => none

/-- Opcodes of two bytes, behind the first. -/
def decodeTwoByte (ext : Extension) : Bytes → Option (Instr × Bytes)
  | [] => none
  | 0x05 :: rest => some (.syscall, rest)
  | 0xB6 :: rest =>
    match decodeOperand ext rest, ext.w with
    | some (reg, .mem m, rest), false => some (.loadByte (.ofCode reg) m, rest)
    | _, _ => none
  | opcode :: rest => do
    let n := opcode.toNat
    if n / 16 ≠ 8 then none
    let c ← Cond.ofCode? (n % 16)
    let (rel, rest) ← takeInt32 rest
    return (.jcc c rel, rest)

/-- Opcodes that hold a register in their low bits. -/
def decodeLow (ext : Extension) (opcode : Nat) (rest : Bytes) : Option (Instr × Bytes) :=
  let r := extended ext.b (opcode % 8)
  match opcode / 8 with
  | 0x0A => some (.push r, rest)
  | 0x0B => some (.pop r, rest)
  | 0x17 =>
    if ext.w then (takeNat 8 rest).map fun (n, rest) => (.movImm64 r (UInt64.ofNat n), rest)
    else (takeNat 4 rest).map fun (n, rest) => (.movImm32 r (UInt32.ofNat n), rest)
  | _ => none

/-- Opcodes followed by an operand and nothing else. -/
def decodePlain (ext : Extension) (opcode : Nat) (bytes : Bytes) : Option (Instr × Bytes) :=
  match decodeOperand ext bytes with
  | some (reg, .mem m, rest) => (ofMem? ext opcode reg m).map (·, rest)
  | some (reg, .reg r, rest) => (ofReg? ext opcode reg r).map (·, rest)
  | none => none

/-- The instruction at the front of a byte string, and the bytes behind it. -/
def decode (bytes : Bytes) : Option (Instr × Bytes) :=
  match decodeExtension bytes with
  | (_, []) => none
  | (ext, opcode :: rest) =>
    let n := opcode.toNat
    if n = 0x0F then decodeTwoByte ext rest
    else if n = 0xC3 then some (.ret, rest)
    else if n = 0xE9 then (takeInt32 rest).map fun (rel, rest) => (.jmp rel, rest)
    else if n = 0x80 ∨ n = 0x81 then decodeAlu ext n rest
    else if n / 8 = 0x0A ∨ n / 8 = 0x0B ∨ n / 8 = 0x17 then decodeLow ext n rest
    else decodePlain ext n rest

end TapeLang.X86
