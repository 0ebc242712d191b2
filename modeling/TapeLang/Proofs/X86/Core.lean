import TapeLang.X86.Machine
import Mathlib.Algebra.Ring.Nat

/-!
# Instructions apart from control

What an instruction does to registers, flags and memory does not depend on where it stands, unless it
is about control itself. No instruction changes the code.
-/

namespace TapeLang

namespace X86

/-! Arithmetic of a width. -/

theorem low_word (v : UInt64) : Width.low .word v = v := by
  have h : Width.mask .word = -1 := rfl
  rw [Width.low, h, UInt64.and_neg_one]

theorem toNat_low_half (v : UInt64) : (Width.low .half v).toNat = v.toNat % 2 ^ 32 := by
  rw [Width.low, UInt64.toNat_and, ← Nat.and_two_pow_sub_one_eq_mod]
  rfl

theorem toNat_low_byte (v : UInt64) : (Width.low .byte v).toNat = v.toNat % 2 ^ 8 := by
  rw [Width.low, UInt64.toNat_and, ← Nat.and_two_pow_sub_one_eq_mod]
  rfl

private theorem toUInt8_addFlags (a b : UInt8) :
    (addFlags .byte a.toUInt64 b.toUInt64).1.toUInt8 = a + b := by
  apply UInt8.toNat_inj.mp
  rw [addFlags, UInt64.toNat_toUInt8, toNat_low_byte, UInt64.toNat_add, UInt8.toNat_toUInt64,
    UInt8.toNat_toUInt64, UInt8.toNat_add]
  omega

/-- A machine without its instruction pointer. -/
structure Core where
  regs : Registers
  flags : Flags
  memory : Memory

def Core.at (c : Core) (rip : UInt64) : Machine :=
  ⟨c.regs, c.flags, rip, c.memory⟩

def Machine.core (m : Machine) : Core :=
  ⟨m.regs, m.flags, m.memory⟩

@[simp] theorem Core.core_at (c : Core) (rip : UInt64) : (c.at rip).core = c := rfl

/-- Whether an instruction has nothing to do with the instruction pointer. -/
def Instr.isStraight : Instr → Bool
  | .ret | .syscall | .callMem _ | .jmp _ | .jcc _ _ => false
  | _ => true

namespace Core

def execute? (c : Core) (i : Instr) : Option Core :=
  ((c.at 0).execute? i).map Machine.core

theorem execute?_at {i : Instr} (h : i.isStraight = true) (c : Core) (rip : UInt64) :
    (c.at rip).execute? i = (c.execute? i).map (·.at rip) := by
  obtain ⟨regs, flags, memory⟩ := c
  unfold execute? Machine.execute?
  cases i with
  | push r =>
    simp only [Machine.push?, Core.at]
    cases memory.storeWord? (regs.rsp - 8) (regs.get r) <;> rfl
  | pop r =>
    simp only [Machine.pop?, Core.at]
    cases memory.loadWord? regs.rsp <;> rfl
  | ret => cases h
  | syscall => cases h
  | mov dst src => rfl
  | load dst a =>
    simp only [Core.at]
    cases memory.loadWord? (regs.address a) <;> rfl
  | store a src =>
    simp only [Machine.storeWord?, Core.at]
    cases memory.storeWord? (regs.address a) (regs.get src) <;> rfl
  | storeByte a src =>
    simp only [Machine.storeByte?, Core.at]
    cases memory.store? (regs.address a) (regs.get src).toUInt8 <;> rfl
  | loadByte dst a =>
    simp only [Core.at]
    cases memory.load? (regs.address a) <;> rfl
  | movImm32 dst imm => rfl
  | movImm64 dst imm => rfl
  | aluImm op dst imm => cases op <;> rfl
  | aluImm32 op dst imm => cases op <;> rfl
  | aluByteImm op a imm =>
    simp only [Machine.aluByte?, Core.at]
    cases memory.load? (regs.address a) with
    | none => rfl
    | some b =>
      cases op with
      | cmp => rfl
      | add =>
        simp only [Alu.apply, Machine.setFlags, Machine.storeByte?]
        cases memory.store? (regs.address a) (addFlags .byte b.toUInt64 imm.toUInt64).1.toUInt8 <;> rfl
      | sub =>
        simp only [Alu.apply, Machine.setFlags, Machine.storeByte?]
        cases memory.store? (regs.address a) (subFlags .byte b.toUInt64 imm.toUInt64).1.toUInt8 <;> rfl
  | cmp a b => rfl
  | test a b => rfl
  | test32 a b => rfl
  | xor32 dst src => rfl
  | lea dst a => rfl
  | callMem a => cases h
  | jmp rel => cases h
  | jcc c rel => cases h

/-! What the forms of instructions do. -/

def setReg (c : Core) (r : Reg) (v : UInt64) : Core :=
  { c with regs := c.regs.set r v }

def setFlags (c : Core) (flags : Flags) : Core :=
  { c with flags }

def setMemory (c : Core) (memory : Memory) : Core :=
  { c with memory }

variable (c : Core)

theorem execute?_mov (dst src : Reg) :
    c.execute? (.mov dst src) = some (c.setReg dst (c.regs.get src)) := rfl

theorem execute?_lea (dst : Reg) (a : Mem) :
    c.execute? (.lea dst a) = some (c.setReg dst (c.regs.address a)) := rfl

theorem execute?_movImm32 (dst : Reg) (imm : UInt32) :
    c.execute? (.movImm32 dst imm) = some (c.setReg dst imm.toUInt64) := rfl

theorem execute?_movImm64 (dst : Reg) (imm : UInt64) :
    c.execute? (.movImm64 dst imm) = some (c.setReg dst imm) := rfl

theorem execute?_cmp (a b : Reg) :
    c.execute? (.cmp a b) = some (c.setFlags (subFlags .word (c.regs.get a) (c.regs.get b)).2) := rfl

theorem execute?_test (r : Reg) :
    c.execute? (.test r r) = some (c.setFlags (logicFlags .word (c.regs.get r))) := by
  show some (c.setFlags (logicFlags .word (c.regs.get r &&& c.regs.get r))) = _
  rw [UInt64.and_self]

theorem execute?_test32 (r : Reg) : c.execute? (.test32 r r) =
    some (c.setFlags (logicFlags .half (Width.low .half (c.regs.get r)))) := by
  show some (c.setFlags (logicFlags .half (Width.low .half (c.regs.get r &&& c.regs.get r)))) = _
  rw [UInt64.and_self]

/-- A register xor itself is zero. -/
theorem execute?_clear (r : Reg) :
    c.execute? (.xor32 r r) = some ((c.setReg r 0).setFlags (logicFlags .half 0)) := by
  have hzero : Width.low .half (c.regs.get r ^^^ c.regs.get r) = 0 := by
    rw [UInt64.xor_self]
    rfl
  rw [← hzero]
  rfl

theorem execute?_cmpImm (dst : Reg) (imm : Int32) : c.execute? (.aluImm .cmp dst imm) =
    some (c.setFlags (subFlags .word (c.regs.get dst) (signExtend imm)).2) := by
  rw [← low_word (c.regs.get dst), ← low_word (signExtend imm)]
  rfl

theorem execute?_cmpImm32 (dst : Reg) (imm : Int32) : c.execute? (.aluImm32 .cmp dst imm) =
    some (c.setFlags (subFlags .half (Width.low .half (c.regs.get dst))
      (Width.low .half (signExtend imm))).2) := rfl

theorem execute?_subImm (dst : Reg) (imm : Int32) : c.execute? (.aluImm .sub dst imm) =
    some ((c.setReg dst (c.regs.get dst - signExtend imm)).setFlags
      (subFlags .word (c.regs.get dst) (signExtend imm)).2) := by
  have hsub : (subFlags .word (c.regs.get dst) (signExtend imm)).1 = c.regs.get dst - signExtend imm :=
    low_word _
  rw [← hsub, ← low_word (c.regs.get dst), ← low_word (signExtend imm)]
  rfl

variable {c}

theorem execute?_load {dst : Reg} {a : Mem} {w : UInt64}
    (h : c.memory.loadWord? (c.regs.address a) = some w) :
    c.execute? (.load dst a) = some (c.setReg dst w) := by
  show ((c.memory.loadWord? (c.regs.address a)).map fun w => (c.at 0).setReg dst w).map Machine.core = _
  rw [h]
  rfl

theorem execute?_loadByte {dst : Reg} {a : Mem} {b : UInt8}
    (h : c.memory.load? (c.regs.address a) = some b) :
    c.execute? (.loadByte dst a) = some (c.setReg dst b.toUInt64) := by
  show ((c.memory.load? (c.regs.address a)).map fun b => (c.at 0).setReg dst b.toUInt64).map
    Machine.core = _
  rw [h]
  rfl

theorem execute?_store {a : Mem} {src : Reg} {memory : Memory}
    (h : c.memory.storeWord? (c.regs.address a) (c.regs.get src) = some memory) :
    c.execute? (.store a src) = some (c.setMemory memory) := by
  have hstored : (c.at 0).storeWord? (c.regs.address a) (c.regs.get src) =
      some ((c.setMemory memory).at 0) := by
    simp only [Machine.storeWord?, Core.at, h]
    rfl
  exact congrArg (Option.map Machine.core) hstored

theorem execute?_storeByte {a : Mem} {src : Reg} {memory : Memory}
    (h : c.memory.store? (c.regs.address a) (c.regs.get src).toUInt8 = some memory) :
    c.execute? (.storeByte a src) = some (c.setMemory memory) := by
  have hstored : (c.at 0).storeByte? (c.regs.address a) (c.regs.get src).toUInt8 =
      some ((c.setMemory memory).at 0) := by
    simp only [Machine.storeByte?, Core.at, h]
    rfl
  exact congrArg (Option.map Machine.core) hstored

theorem execute?_cmpByte {a : Mem} {b imm : UInt8}
    (h : c.memory.load? (c.regs.address a) = some b) :
    c.execute? (.aluByteImm .cmp a imm) =
      some (c.setFlags (subFlags .byte b.toUInt64 imm.toUInt64).2) := by
  have hcompared : (c.at 0).aluByte? .cmp (c.regs.address a) imm =
      some ((c.setFlags (subFlags .byte b.toUInt64 imm.toUInt64).2).at 0) := by
    simp only [Machine.aluByte?, Core.at, h]
    rfl
  exact congrArg (Option.map Machine.core) hcompared

theorem execute?_addByte {a : Mem} {b imm : UInt8} {memory : Memory}
    (h : c.memory.load? (c.regs.address a) = some b)
    (hstore : c.memory.store? (c.regs.address a) (b + imm) = some memory) :
    c.execute? (.aluByteImm .add a imm) =
      some ((c.setMemory memory).setFlags (addFlags .byte b.toUInt64 imm.toUInt64).2) := by
  have hadded : (c.at 0).aluByte? .add (c.regs.address a) imm =
      some (((c.setMemory memory).setFlags (addFlags .byte b.toUInt64 imm.toUInt64).2).at 0) := by
    simp only [Machine.aluByte?, Core.at, h, Alu.apply, Machine.setFlags, Machine.storeByte?,
      toUInt8_addFlags, hstore]
    rfl
  exact congrArg (Option.map Machine.core) hadded

theorem execute?_push {r : Reg} {memory : Memory}
    (h : c.memory.storeWord? (c.regs.rsp - 8) (c.regs.get r) = some memory) :
    c.execute? (.push r) = some ((c.setReg .rsp (c.regs.rsp - 8)).setMemory memory) := by
  have hpushed : (c.at 0).push? (c.regs.get r) =
      some (((c.setReg .rsp (c.regs.rsp - 8)).setMemory memory).at 0) := by
    simp only [Machine.push?, Core.at, h]
    rfl
  exact congrArg (Option.map Machine.core) hpushed

theorem execute?_pop {r : Reg} {w : UInt64} (h : c.memory.loadWord? c.regs.rsp = some w) :
    c.execute? (.pop r) = some ((c.setReg .rsp (c.regs.rsp + 8)).setReg r w) := by
  have hpopped : (c.at 0).pop? = some (w, (c.at 0).setReg .rsp (c.regs.rsp + 8)) := by
    simp only [Machine.pop?, Core.at, h]
  show (((c.at 0).pop?).map _).map Machine.core = _
  rw [hpopped]
  rfl

end Core

/-! No instruction changes the code. -/

theorem Memory.code_store? {m m' : Memory} {a : UInt64} {b : UInt8} (h : m.store? a b = some m') :
    m'.code = m.code := by
  obtain ⟨code, tape, context, stack⟩ := m
  simp only [store?] at h
  repeat' split at h
  all_goals first | (obtain rfl := Option.some.inj h; rfl) | cases h

private theorem Memory.code_storeBytes? {m m' : Memory} {a : UInt64} {bytes : Bytes}
    (h : m.storeBytes? a bytes = some m') : m'.code = m.code := by
  induction bytes generalizing m a with
  | nil => exact congrArg Memory.code (Option.some.inj h).symm
  | cons b rest ih =>
    obtain ⟨m₁, hm, hrest⟩ := Option.bind_eq_some_iff.mp h
    exact (ih hrest).trans (Memory.code_store? hm)

private theorem Machine.code_storeWord? {m m' : Machine} {a w : UInt64}
    (h : m.storeWord? a w = some m') : m'.memory.code = m.memory.code := by
  simp only [storeWord?] at h
  split at h
  next hstore =>
    obtain rfl := Option.some.inj h
    exact Memory.code_storeBytes? hstore
  next => simp at h

private theorem Machine.code_storeByte? {m m' : Machine} {a : UInt64} {b : UInt8}
    (h : m.storeByte? a b = some m') : m'.memory.code = m.memory.code := by
  simp only [storeByte?] at h
  split at h
  next hstore =>
    obtain rfl := Option.some.inj h
    exact Memory.code_store? hstore
  next => simp at h

private theorem Machine.code_push? {m m' : Machine} {w : UInt64} (h : m.push? w = some m') :
    m'.memory.code = m.memory.code := by
  simp only [push?] at h
  split at h
  next hstore =>
    obtain rfl := Option.some.inj h
    exact Memory.code_storeBytes? hstore
  next => simp at h

private theorem Machine.code_aluByte? {m m' : Machine} {op : Alu} {a : UInt64} {imm : UInt8}
    (h : m.aluByte? op a imm = some m') : m'.memory.code = m.memory.code := by
  unfold aluByte? at h
  split at h
  next => simp at h
  next b _ =>
    split at h
    next v flags _ => exact (code_storeByte? h).trans rfl
    next flags _ =>
      obtain rfl := Option.some.inj h
      rfl

private theorem Machine.code_pop? {m m' : Machine} {w : UInt64} (h : m.pop? = some (w, m')) :
    m'.memory.code = m.memory.code := by
  simp only [pop?] at h
  split at h
  next =>
    obtain ⟨-, rfl⟩ := Prod.mk.inj (Option.some.inj h)
    rfl
  next => simp at h

theorem Machine.code_execute? {m m' : Machine} {i : Instr} (h : m.execute? i = some m') :
    m'.memory.code = m.memory.code := by
  unfold execute? at h
  cases i with
  | push r => exact code_push? h
  | pop r | ret =>
    obtain ⟨⟨w, m₁⟩, hpop, rfl⟩ := Option.map_eq_some_iff.mp h
    show m₁.memory.code = _
    exact code_pop? hpop
  | load dst a | loadByte dst a =>
    obtain ⟨w, -, rfl⟩ := Option.map_eq_some_iff.mp h
    rfl
  | store a src => exact code_storeWord? h
  | storeByte a src => exact code_storeByte? h
  | aluImm op dst imm | aluImm32 op dst imm =>
    obtain rfl := Option.some.inj h
    cases op <;> rfl
  | aluByteImm op a imm => exact code_aluByte? h
  | callMem a =>
    dsimp only at h
    split at h
    next => cases h
    next target _ =>
      obtain ⟨m₁, hpush, rfl⟩ := Option.map_eq_some_iff.mp h
      show m₁.memory.code = _
      exact code_push? hpush
  | jcc c rel =>
    obtain rfl := Option.some.inj h
    cases c.holds m.flags <;> rfl
  | _ =>
    obtain rfl := Option.some.inj h
    rfl

theorem Core.code_execute? {c c' : Core} {i : Instr} (h : c.execute? i = some c') :
    c'.memory.code = c.memory.code := by
  obtain ⟨m, hm, rfl⟩ := Option.map_eq_some_iff.mp h
  exact Machine.code_execute? hm

/-- The machine after a step that is the processor's alone. -/
def Machine.next? (m : Machine) : Option Machine :=
  match m.step with
  | .next m => some m
  | _ => none

theorem Machine.next?_eq_some {m m' : Machine} : m.next? = some m' ↔ m.step = .next m' := by
  unfold next?
  cases m.step <;> simp

theorem Machine.code_next? {m m' : Machine} (h : m.next? = some m') :
    m'.memory.code = m.memory.code := by
  rw [next?_eq_some] at h
  unfold step at h
  split at h
  next => cases h
  next i length _ =>
    dsimp only at h
    split at h
    next => cases h
    next =>
      split at h
      next hexecute =>
        obtain rfl := Step.next.inj h
        exact (code_execute? hexecute).trans rfl
      next => cases h

theorem Core.step_of_fetch {c : Core} {rip : UInt64} {i : Instr} {length : Nat}
    (h : c.memory.code.fetch? rip = some (i, length)) :
    (c.at rip).step =
      if i = .syscall then .syscall (c.at (rip + UInt64.ofNat length))
      else match (c.at (rip + UInt64.ofNat length)).execute? i with
        | some m => .next m
        | none => .fault := by
  have hfetch : (c.at rip).memory.code.fetch? (c.at rip).rip = some (i, length) := h
  rw [Machine.step, hfetch]
  rfl

theorem Core.next?_of_fetch {c : Core} {rip : UInt64} {i : Instr} {length : Nat}
    (h : c.memory.code.fetch? rip = some (i, length)) (hi : i ≠ .syscall) :
    (c.at rip).next? = (c.at (rip + UInt64.ofNat length)).execute? i := by
  rw [Machine.next?, Core.step_of_fetch h, if_neg hi]
  cases (c.at (rip + UInt64.ofNat length)).execute? i <;> rfl

end X86

end TapeLang
