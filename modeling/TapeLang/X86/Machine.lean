import TapeLang.X86.Arithmetic
import TapeLang.X86.Memory

/-!
# The processor

A machine fetches the bytes at its instruction pointer, decodes them and carries the instruction out.
It stops at a system call, which is the surroundings' work, and at whatever it cannot do: bytes that
are no instruction, and addresses outside its memory.
-/

namespace TapeLang.X86

structure Registers where
  rax : UInt64 := 0
  rcx : UInt64 := 0
  rdx : UInt64 := 0
  rbx : UInt64 := 0
  rsp : UInt64 := 0
  rbp : UInt64 := 0
  rsi : UInt64 := 0
  rdi : UInt64 := 0
  r8 : UInt64 := 0
  r9 : UInt64 := 0
  r10 : UInt64 := 0
  r11 : UInt64 := 0
  r12 : UInt64 := 0
  r13 : UInt64 := 0
  r14 : UInt64 := 0
  r15 : UInt64 := 0
  deriving DecidableEq, Repr

namespace Registers

def get (g : Registers) : Reg → UInt64
  | .rax => g.rax | .rcx => g.rcx | .rdx => g.rdx | .rbx => g.rbx
  | .rsp => g.rsp | .rbp => g.rbp | .rsi => g.rsi | .rdi => g.rdi
  | .r8 => g.r8 | .r9 => g.r9 | .r10 => g.r10 | .r11 => g.r11
  | .r12 => g.r12 | .r13 => g.r13 | .r14 => g.r14 | .r15 => g.r15

def set (g : Registers) (r : Reg) (v : UInt64) : Registers :=
  match r with
  | .rax => { g with rax := v } | .rcx => { g with rcx := v }
  | .rdx => { g with rdx := v } | .rbx => { g with rbx := v }
  | .rsp => { g with rsp := v } | .rbp => { g with rbp := v }
  | .rsi => { g with rsi := v } | .rdi => { g with rdi := v }
  | .r8 => { g with r8 := v } | .r9 => { g with r9 := v }
  | .r10 => { g with r10 := v } | .r11 => { g with r11 := v }
  | .r12 => { g with r12 := v } | .r13 => { g with r13 := v }
  | .r14 => { g with r14 := v } | .r15 => { g with r15 := v }

@[simp] theorem get_set_self (g : Registers) (r : Reg) (v : UInt64) : (g.set r v).get r = v := by
  cases r <;> rfl

theorem get_set_of_ne (g : Registers) {r r' : Reg} (v : UInt64) (h : r' ≠ r) :
    (g.set r v).get r' = g.get r' := by
  cases r <;> cases r' <;> first | rfl | exact absurd rfl h

/-- The address of a memory operand. -/
def address (g : Registers) (m : Mem) : UInt64 :=
  let index := match m.index with
    | some r => g.get r
    | none => 0
  g.get m.base + index + signExtend m.disp

end Registers

structure Machine where
  regs : Registers
  flags : Flags
  rip : UInt64
  memory : Memory

inductive Step where
  | next (m : Machine)
  /-- A system call; the instruction pointer is already behind it. -/
  | syscall (m : Machine)
  | fault

namespace Machine

def setReg (m : Machine) (r : Reg) (v : UInt64) : Machine :=
  { m with regs := m.regs.set r v }

def setFlags (m : Machine) (flags : Flags) : Machine :=
  { m with flags }

def push? : Machine → UInt64 → Option Machine
  | ⟨regs, flags, rip, memory⟩, w =>
    let top := regs.rsp - 8
    match memory.storeWord? top w with
    | some memory => some ⟨regs.set .rsp top, flags, rip, memory⟩
    | none => none

def pop? (m : Machine) : Option (UInt64 × Machine) :=
  match m.memory.loadWord? m.regs.rsp with
  | some w => some (w, m.setReg .rsp (m.regs.rsp + 8))
  | none => none

def storeByte? : Machine → UInt64 → UInt8 → Option Machine
  | ⟨regs, flags, rip, memory⟩, a, b =>
    match memory.store? a b with
    | some memory => some ⟨regs, flags, rip, memory⟩
    | none => none

def storeWord? : Machine → UInt64 → UInt64 → Option Machine
  | ⟨regs, flags, rip, memory⟩, a, w =>
    match memory.storeWord? a w with
    | some memory => some ⟨regs, flags, rip, memory⟩
    | none => none

/-- An arithmetic operation on a register. -/
def aluReg (m : Machine) (op : Alu) (w : Width) (dst : Reg) (imm : UInt64) : Machine :=
  match op.apply w (w.low (m.regs.get dst)) (w.low imm) with
  | (some v, flags) => (m.setReg dst v).setFlags flags
  | (none, flags) => m.setFlags flags

/-- An arithmetic operation on a byte of memory. -/
def aluByte? (m : Machine) (op : Alu) (a : UInt64) (imm : UInt8) : Option Machine :=
  match m.memory.load? a with
  | none => none
  | some b =>
    match op.apply .byte b.toUInt64 imm.toUInt64 with
    | (some v, flags) => (m.setFlags flags).storeByte? a v.toUInt8
    | (none, flags) => some (m.setFlags flags)

/-- Carries out an instruction other than a system call. The instruction pointer is behind it
already. -/
def execute? (m : Machine) (i : Instr) : Option Machine :=
  match i with
  | .push r => m.push? (m.regs.get r)
  | .pop r => m.pop?.map fun (w, m) => m.setReg r w
  | .ret => m.pop?.map fun (w, m) => { m with rip := w }
  | .syscall => some m
  | .mov dst src => some (m.setReg dst (m.regs.get src))
  | .load dst a => (m.memory.loadWord? (m.regs.address a)).map fun w => m.setReg dst w
  | .store a src => m.storeWord? (m.regs.address a) (m.regs.get src)
  | .storeByte a src => m.storeByte? (m.regs.address a) (m.regs.get src).toUInt8
  | .loadByte dst a => (m.memory.load? (m.regs.address a)).map fun b => m.setReg dst b.toUInt64
  | .movImm32 dst imm => some (m.setReg dst imm.toUInt64)
  | .movImm64 dst imm => some (m.setReg dst imm)
  | .aluImm op dst imm => some (m.aluReg op .word dst (signExtend imm))
  | .aluImm32 op dst imm => some (m.aluReg op .half dst (signExtend imm))
  | .aluByteImm op a imm => m.aluByte? op (m.regs.address a) imm
  | .cmp a b => some (m.setFlags (subFlags .word (m.regs.get a) (m.regs.get b)).2)
  | .test a b => some (m.setFlags (logicFlags .word (m.regs.get a &&& m.regs.get b)))
  | .test32 a b =>
    some (m.setFlags (logicFlags .half (Width.low .half (m.regs.get a &&& m.regs.get b))))
  | .xor32 dst src =>
    let v := Width.low .half (m.regs.get dst ^^^ m.regs.get src)
    some ((m.setReg dst v).setFlags (logicFlags .half v))
  | .lea dst a => some (m.setReg dst (m.regs.address a))
  | .callMem a =>
    match m.memory.loadWord? (m.regs.address a) with
    | none => none
    | some target => (m.push? m.rip).map fun m => { m with rip := target }
  | .jmp rel => some { m with rip := m.rip + signExtend rel }
  | .jcc c rel => some (if c.holds m.flags then { m with rip := m.rip + signExtend rel } else m)

def step (m : Machine) : Step :=
  match m.memory.code.fetch? m.rip with
  | none => .fault
  | some (i, length) =>
    let m := { m with rip := m.rip + UInt64.ofNat length }
    if i = .syscall then .syscall m
    else match m.execute? i with
      | some m => .next m
      | none => .fault

end Machine

end TapeLang.X86
