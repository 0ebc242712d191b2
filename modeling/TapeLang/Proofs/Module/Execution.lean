import TapeLang.Module.Execution
import TapeLang.Proofs.Channel.Retry
import TapeLang.Proofs.Native.Realization
import TapeLang.Proofs.Native.SystemCalls

/-!
# Steps of a process

The processor takes the steps inside the code, and the kernel those for system calls. A transfer makes
its call again for as long as it is interrupted.
-/

namespace TapeLang.Module

open X86 Assembly Transition Native Native.SystemCalls

namespace Execution

variable {scratch : Scratch} {s t : Execution}

/-- The state after a step, if the process goes on. -/
def next? (scratch : Scratch) (s : Execution) : Option Execution :=
  match step scratch s with
  | .next s => some s
  | _ => none

theorem next?_eq_some : next? scratch s = some t ↔ step scratch s = .next t := by
  unfold next?
  cases step scratch s <;> simp

/-- A process ends within some fuel exactly when steps lead to one that ends it. -/
theorem run_eq_some_iff {last : ExecutionStep} :
    (∃ fuel, run scratch fuel s = some last) ↔
      ∃ n t, Reaches (next? scratch) n s t ∧ next? scratch t = none ∧ step scratch t = last := by
  have goes : ∀ fuel s t, next? scratch s = some t → run scratch (fuel + 1) s = run scratch fuel t := by
    intro fuel s t h
    simp only [run, next?_eq_some.mp h]
  have stops : ∀ fuel s, next? scratch s = none →
      run scratch (fuel + 1) s = some (step scratch s) := by
    intro fuel s h
    unfold next? at h
    unfold run
    cases hs : step scratch s <;> simp_all
  simpa only [Option.some.injEq] using
    exists_fuel_iff (s := s) (r := last) (fun _ => rfl) goes stops

theorem next?_of_machine {m m' : Machine} (h : m.next? = some m') (v : Execution) :
    next? scratch { v with machine := m } = some { v with machine := m' } := by
  rw [next?_eq_some]
  simp only [step, Machine.next?_eq_some.mp h]

theorem step_syscall (scratch : Scratch) {L : Loaded} {rest : List (Item Label)} {c : Core}
    {rip : UInt64} (hat : L.At (.plain .syscall :: rest) rip) (hcode : c.memory.code = L.code)
    (v : Execution) :
    ∃ rip', L.At rest rip' ∧ step scratch { v with machine := c.at rip } =
      systemCall scratch { v with machine := c.at rip' } := by
  refine ⟨_, hat.next, ?_⟩
  have hstep := Core.step_of_fetch (hat.fetch_plain hcode)
  rw [if_pos rfl] at hstep
  simp only [step, hstep]

/-- The core a system call returns to. -/
def answered (scratch : UInt64 × UInt64) (result : UInt64) (stack : Region) (c : Core) : Core :=
  ⟨{ c.regs with rax := result, rcx := scratch.1, r11 := scratch.2 }, c.flags,
    { c.memory with stack }⟩

/-! Answers of the kernel. -/

def readResult : InputEvent → UInt64
  | .byte _ => 1
  | .ended => 0
  | .failed f => failureResult f

/-- The stack behind a read into it. -/
def received (stack : Region) (a : UInt64) : InputEvent → Region
  | .byte b => stack.store a b
  | _ => stack

private theorem received_shape (stack : Region) (a : UInt64) (e : InputEvent) :
    (received stack a e).base = stack.base ∧
      (received stack a e).bytes.size = stack.bytes.size := by
  cases e <;> simp [received]

def writeResult : OutputEvent → UInt64
  | .taken => 1
  | .refused => 0
  | .failed f => failureResult f

variable {c : Core}

theorem systemCall_read (scratch : Scratch) (hrax : c.regs.rax = 0) (hrdi : c.regs.rdi = 0)
    (hrdx : c.regs.rdx = 1)
    (hstore : ∀ b, c.memory.store? c.regs.rsi b =
      some { c.memory with stack := c.memory.stack.store c.regs.rsi b })
    (v : Execution) (rip : UInt64) :
    systemCall scratch { v with machine := c.at rip } =
      .next ⟨(answered (scratch v.calls) (readResult v.input.call.1)
        (received c.memory.stack c.regs.rsi v.input.call.1) c).at rip, v.input.call.2, v.output,
        v.calls + 1⟩ := by
  have hread : systemCall scratch { v with machine := c.at rip } =
      readCall scratch { v with machine := c.at rip } := by
    simp [systemCall, Core.at, hrax, hrdi, hrdx]
  rw [hread, readCall]
  rcases v.input.call with ⟨b | _ | f, left⟩
  · simp only [Core.at, Machine.storeByte?, hstore b]
    rfl
  · rfl
  · rfl

private theorem systemCall_write (scratch : Scratch) {b : UInt8} (hrax : c.regs.rax = 1)
    (hrdi : c.regs.rdi = 1) (hrdx : c.regs.rdx = 1) (hload : c.memory.load? c.regs.rsi = some b)
    (v : Execution) (rip : UInt64) :
    systemCall scratch { v with machine := c.at rip } =
      .next ⟨(answered (scratch v.calls) (writeResult (v.output.call b).1) c.memory.stack c).at rip,
        v.input, (v.output.call b).2, v.calls + 1⟩ := by
  have hwrite : systemCall scratch { v with machine := c.at rip } =
      writeCall scratch { v with machine := c.at rip } := by
    simp [systemCall, Core.at, hrax, hrdi, hrdx]
  rw [hwrite, writeCall]
  simp only [Core.at, hload]
  rcases v.output.call b with ⟨_ | _ | f, left⟩ <;> rfl

theorem systemCall_exit (scratch : Scratch) (hrax : c.regs.rax = 60) (v : Execution) (rip : UInt64) :
    systemCall scratch { v with machine := c.at rip } =
      .exited (c.regs.rdi.toNat % 256) v.input v.output := by
  simp [systemCall, Core.at, hrax]

/-! Only interruptions have the number that asks for another call, and failures are negative. -/

theorem failureResult_eq_iff (f : Failure) :
    failureResult f = signExtend (-4) ↔ f.isInterrupted = true := by
  have hkinds : ∀ kind : FailureKind,
      0 - UInt64.ofNat kind.errno = signExtend (-4) ↔ (kind == .interrupted) = true := by
    intro kind
    cases kind <;> decide
  exact hkinds f.kind

private theorem readResult_eq_iff (e : InputEvent) :
    readResult e = signExtend (-4) ↔ e.isInterrupted = true := by
  cases e with
  | byte b => exact iff_of_false (by simp only [readResult]; decide) Bool.false_ne_true
  | ended => exact iff_of_false (by decide) Bool.false_ne_true
  | failed f => exact failureResult_eq_iff f

private theorem writeResult_eq_iff (e : OutputEvent) :
    writeResult e = signExtend (-4) ↔ e.isInterrupted = true := by
  cases e with
  | taken => exact iff_of_false (by decide) Bool.false_ne_true
  | refused => exact iff_of_false (by decide) Bool.false_ne_true
  | failed f => exact failureResult_eq_iff f

theorem negative_failureResult (f : Failure) : Width.negative .word (failureResult f) = true := by
  have hkinds : ∀ kind : FailureKind,
      Width.negative .word (0 - UInt64.ofNat kind.errno) = true := by
    intro kind
    cases kind <;> decide
  exact hkinds f.kind

end Execution

/-- A program's code running as a process. -/
structure Process where
  loaded : Loaded
  frame : Frame
  program : List Instruction
  capacity : Nat
  start : Start
  scratch : Scratch
  compiled : Compiled frame program loaded
  environment : frame.environment = SystemCalls.environment capacity
  /-- The stack lies apart from the tape. -/
  apart : Apart loaded.address capacity start.stack.base start.stack.bytes.size
  /-- The buffer lies on the stack. -/
  room : (start.regs.rsp - 16 - start.stack.base).toNat < start.stack.bytes.size

namespace Process

variable {P : Process} {xs ys : List (Item Label)} {t t' : Tape} {c : Core} {rip : UInt64}

abbrev next? (P : Process) : Execution → Option Execution :=
  Execution.next? P.scratch

/-- The code is at some items, with a tape and the buffer in place. -/
structure At (P : Process) (xs : List (Item Label)) (t : Tape) (c : Core) (rip : UInt64) : Prop where
  items : P.loaded.At xs rip
  code : c.memory.code = P.loaded.code
  holds : Holds P.loaded.address t c
  capacity : t.capacity = P.capacity
  rsp : c.regs.rsp = P.start.regs.rsp - 16
  context : c.memory.context.bytes = #[]
  stack : c.memory.stack.base = P.start.stack.base ∧
    c.memory.stack.bytes.size = P.start.stack.bytes.size

theorem next?_of_machine (P : Process) (v : Execution) (m m' : Machine)
    (_ : m.memory.code = P.loaded.code) (h : m.next? = some m') :
    P.next? { v with machine := m } = some { v with machine := m' } :=
  Execution.next?_of_machine h v

namespace At

/-! The buffer. -/

theorem contains_buffer (h : P.At xs t c rip) : c.memory.stack.contains c.regs.rsp = true := by
  rw [Region.contains, Region.index, h.rsp, h.stack.1, h.stack.2]
  exact decide_eq_true P.room

theorem separate (h : P.At xs t c rip) : c.memory.Separate := by
  have hempty : c.memory.context.bytes.size = 0 := by rw [h.context]; rfl
  apply Memory.separate_of_apart
  · intro a _
    rw [hempty]
    exact Nat.not_lt_zero _
  · rw [h.holds.tape, h.stack.1, h.stack.2]
    show Apart _ t.capacity _ _
    rw [h.capacity]
    exact P.apart
  · intro a ha
    rw [hempty] at ha
    exact absurd ha (Nat.not_lt_zero _)

theorem load?_buffer (h : P.At xs t c rip) :
    c.memory.load? c.regs.rsp = c.memory.stack.load? c.regs.rsp :=
  Memory.load?_area (k := .stack) h.separate h.contains_buffer

theorem store?_buffer (h : P.At xs t c rip) (b : UInt8) :
    c.memory.store? c.regs.rsp b =
      some { c.memory with stack := c.memory.stack.store c.regs.rsp b } :=
  Memory.store?_area (k := .stack) h.separate h.contains_buffer b

/-! Steps of the processor. -/

/-- Fragments run in a process. -/
theorem reaches {n : Nat} {c' : Core} (h : P.At xs t c rip) (v : Execution)
    (hlead : Leads P.loaded n xs c ys c') (hholds : Holds P.loaded.address t' c') (hkept : Kept c c')
    (hcapacity : t'.capacity = t.capacity) :
    ∃ rip', Reaches P.next? n { v with machine := c.at rip } { v with machine := c'.at rip' } ∧
      P.At ys t' c' rip' := by
  obtain ⟨rip', hreach, hat, hcode⟩ := hlead.reaches (P.next?_of_machine v) h.items h.code
  exact ⟨rip', hreach, hat, hcode, hholds, hcapacity.trans h.capacity,
    (hkept.regs .rsp (by decide) (by decide)).trans h.rsp,
    (congrArg Region.bytes hkept.context).trans h.context, hkept.stack ▸ h.stack⟩

theorem arrives {k : Nat} (h : P.At xs t c rip) (v : Execution)
    (harrives : Arrives P.loaded P.loaded.address k xs c ys t') (hcapacity : t'.capacity = t.capacity) :
    ∃ n c' rip', k ≤ n ∧
      Reaches P.next? n { v with machine := c.at rip } { v with machine := c'.at rip' } ∧
      P.At ys t' c' rip' := by
  obtain ⟨n, c', hk, hlead, hholds, hkept⟩ := harrives
  obtain ⟨rip', hreach, hat⟩ := h.reaches v hlead hholds hkept hcapacity
  exact ⟨n, c', rip', hk, hreach, hat⟩

theorem skip {l : Label} (h : P.At (.bind l :: xs) t c rip) : P.At xs t c rip :=
  ⟨h.items.next_bind, h.code, h.holds, h.capacity, h.rsp, h.context, h.stack⟩

theorem setReg (h : P.At xs t c rip) {r : Reg} (hr : r ∉ [.rsp, .rbx, .r12, .r13]) (w : UInt64)
    {rip' : UInt64} (hat : P.loaded.At ys rip') : P.At ys t (c.setReg r w) rip' := by
  have hrsp : (c.regs.set r w).get .rsp = c.regs.get .rsp :=
    Registers.get_set_of_ne _ _ (by rintro rfl; exact hr (by decide))
  exact ⟨hat, h.code, h.holds.setReg (fun hmem => hr (List.mem_cons_of_mem _ hmem)) w, h.capacity,
    hrsp.trans h.rsp, h.context, h.stack⟩

/-- Instructions that set a register the code does not rely on. -/
theorem sets {i : Instr} {r : Reg} {w : UInt64} (h : P.At (.plain i :: xs) t c rip)
    (v : Execution) (hi : i.isStraight = true) (hexecute : c.execute? i = some (c.setReg r w))
    (hr : r ∉ [.rsp, .rbx, .r12, .r13]) :
    ∃ rip', Reaches P.next? 1 { v with machine := c.at rip }
        { v with machine := (c.setReg r w).at rip' } ∧ P.At xs t (c.setReg r w) rip' := by
  have hlead : Leads P.loaded 1 (.plain i :: xs) c xs (c.setReg r w) := .plain hi hexecute .refl
  obtain ⟨rip', hreach, hat, -⟩ := hlead.reaches (P.next?_of_machine v) h.items h.code
  exact ⟨rip', hreach, h.setReg hr w hat⟩

/-! A round of a transfer. -/

/-- The registers a transfer asks with. -/
def request (number descriptor : UInt32) (c : Core) : Core :=
  (((c.setReg .rax number.toUInt64).setReg .rdi descriptor.toUInt64).setReg .rsi c.regs.rsp).setReg
    .rdx 1

private theorem requests {number descriptor : UInt32} {retry : Label}
    (h : P.At (transferItems number descriptor retry ++ xs) t c rip) (v : Execution) :
    ∃ rip', Reaches P.next? 4 { v with machine := c.at rip }
        { v with machine := (request number descriptor c).at rip' } ∧
      P.At (.plain .syscall :: .plain (.aluImm .cmp .rax (-4)) :: .branch .equal retry :: xs) t
        (request number descriptor c) rip' := by
  obtain ⟨rip₁, hreach₁, h₁⟩ := h.skip.sets v rfl (Core.execute?_movImm32 ..) (by decide)
  obtain ⟨rip₂, hreach₂, h₂⟩ := h₁.sets v rfl (Core.execute?_movImm32 ..) (by decide)
  obtain ⟨rip₃, hreach₃, h₃⟩ := h₂.sets v rfl (Core.execute?_mov ..) (by decide)
  obtain ⟨rip₄, hreach₄, h₄⟩ := h₃.sets v rfl (Core.execute?_movImm32 ..) (by decide)
  exact ⟨rip₄, hreach₁.trans (hreach₂.trans (hreach₃.trans hreach₄)), h₄⟩

private theorem leads_again {retry : Label} {target : List (Item Label)}
    (hretry : P.loaded.Bound retry target) (c : Core) :
    ∃ flags, Leads P.loaded 2 (.plain (.aluImm .cmp .rax (-4)) :: .branch .equal retry :: xs) c
      (if c.regs.rax = signExtend (-4) then target else xs) (c.setFlags flags) := by
  have hzero : Cond.holds .equal (c.setFlags (subFlags .word c.regs.rax (signExtend (-4))).2).flags =
      (c.regs.rax == signExtend (-4)) := zero_word ..
  refine ⟨(subFlags .word c.regs.rax (signExtend (-4))).2,
    .plain rfl (Core.execute?_cmpImm c .rax (-4)) ?_⟩
  split
  next heq => exact .taken (hzero.trans (beq_iff_eq.mpr heq)) hretry .refl
  next hne => exact .passed (hzero.trans (beq_eq_false_iff_ne.mpr hne)) .refl

/-- What the kernel answers decides whether the transfer goes on or starts again. -/
theorem round {number descriptor : UInt32} {retry : Label} {result : UInt64} (v v' : Execution)
    (stack : Region) (h : P.At (transferItems number descriptor retry ++ xs) t c rip)
    (hretry : P.loaded.Bound retry (transferItems number descriptor retry ++ xs))
    (hbase : stack.base = c.memory.stack.base)
    (hsize : stack.bytes.size = c.memory.stack.bytes.size)
    (hanswer : ∀ rip', Execution.systemCall P.scratch
        { v with machine := (request number descriptor c).at rip' } =
      .next { v' with machine := (Execution.answered (P.scratch v.calls) result stack
        (request number descriptor c)).at rip' }) :
    ∃ n c' rip', Reaches P.next? n { v with machine := c.at rip }
        { v' with machine := c'.at rip' } ∧
      P.At (if result = signExtend (-4) then transferItems number descriptor retry ++ xs else xs) t
        c' rip' ∧ c'.regs.rax = result ∧ c'.memory.stack = stack := by
  obtain ⟨rip₁, hreach₁, h₁⟩ := h.requests v
  obtain ⟨rip₂, hat₂, hstep⟩ := Execution.step_syscall P.scratch h₁.items h₁.code v
  rw [hanswer, ← Execution.next?_eq_some] at hstep
  have h₂ : P.At (.plain (.aluImm .cmp .rax (-4)) :: .branch .equal retry :: xs) t
      (Execution.answered (P.scratch v.calls) result stack (request number descriptor c)) rip₂ := by
    have hholds := h₁.holds
    exact ⟨hat₂, h₁.code, ⟨hholds.tape, hholds.rbx, hholds.r12, hholds.r13, hholds.onCell,
      hholds.small⟩, h₁.capacity, h₁.rsp, h₁.context, hbase.trans h.stack.1, hsize.trans h.stack.2⟩
  obtain ⟨flags, hlead⟩ := leads_again (P := P) hretry (Execution.answered (P.scratch v.calls) result
    stack (request number descriptor c))
  obtain ⟨rip₃, hreach₃, h₃⟩ := h₂.reaches v' hlead (h₂.holds.setFlags flags) (.setFlags _ flags) rfl
  exact ⟨_, _, rip₃, hreach₁.trans (.step hstep hreach₃), h₃, rfl, rfl⟩

/-- A read ends with the result of the call that was not interrupted, and with the byte in the buffer if
there is one. -/
theorem reads {retry : Label} (h : P.At (transferItems readNumber 0 retry ++ xs) t c rip)
    (hretry : P.loaded.Bound retry (transferItems readNumber 0 retry ++ xs)) (v : Execution) :
    ∃ n c' rip' calls e, Reaches P.next? n { v with machine := c.at rip }
        ⟨c'.at rip', v.input.readByte.2, v.output, calls⟩ ∧
      P.At xs t c' rip' ∧ c'.regs.rax = Execution.readResult e ∧ v.input.readByte.1 = e.outcome ∧
      ∀ b, e = .byte b → c'.memory.load? c'.regs.rsp = some b := by
  obtain ⟨m, input, output, calls⟩ := v
  induction input using Input.induction_on_calls generalizing c rip calls with
  | step input ih =>
    rcases hcall : input.call with ⟨e, left⟩
    have hanswer := Execution.systemCall_read (c := request readNumber 0 c) P.scratch rfl rfl rfl
      h.store?_buffer ⟨m, input, output, calls⟩
    simp only [hcall] at hanswer
    have hshape := Execution.received_shape c.memory.stack c.regs.rsp e
    obtain ⟨n, c', rip', hreach, h', hrax, hstack⟩ := round ⟨m, input, output, calls⟩
      ⟨m, left, output, calls + 1⟩ (Execution.received c.memory.stack c.regs.rsp e)
      h hretry hshape.1 hshape.2 hanswer
    rw [Input.readByte_eq hcall]
    split
    next he =>
      rw [if_pos ((Execution.readResult_eq_iff e).mpr he)] at h'
      obtain ⟨n', c'', rip'', calls', e', hreach', hrest⟩ := ih e left hcall he h' (calls + 1)
      exact ⟨_, c'', rip'', calls', e', hreach.trans hreach', hrest⟩
    next he =>
      rw [if_neg (mt (Execution.readResult_eq_iff e).mp he)] at h'
      refine ⟨n, c', rip', calls + 1, e, hreach, h', hrax, rfl, ?_⟩
      rintro b rfl
      rw [h'.load?_buffer, hstack, h'.rsp, ← h.rsp]
      exact Region.load?_store_self b h.contains_buffer

/-- A write of the byte in the buffer ends with the result of the call that was not interrupted. -/
theorem writes {retry : Label} {b : UInt8}
    (h : P.At (transferItems writeNumber 1 retry ++ xs) t c rip)
    (hretry : P.loaded.Bound retry (transferItems writeNumber 1 retry ++ xs))
    (hb : c.memory.load? c.regs.rsp = some b) (v : Execution) :
    ∃ n c' rip' calls e, Reaches P.next? n { v with machine := c.at rip }
        ⟨c'.at rip', v.input, (v.output.writeByte b).2, calls⟩ ∧
      P.At xs t c' rip' ∧ c'.regs.rax = Execution.writeResult e ∧
      (v.output.writeByte b).1 = e.outcome := by
  obtain ⟨m, input, output, calls⟩ := v
  induction output using Output.induction_on_calls b generalizing c rip calls with
  | step output ih =>
    rcases hcall : output.call b with ⟨e, left⟩
    have hanswer := Execution.systemCall_write (c := request writeNumber 1 c) P.scratch rfl rfl rfl hb
      ⟨m, input, output, calls⟩
    simp only [hcall] at hanswer
    obtain ⟨n, c', rip', hreach, h', hrax, hstack⟩ := round ⟨m, input, output, calls⟩
      ⟨m, input, left, calls + 1⟩ c.memory.stack h hretry rfl rfl hanswer
    rw [Output.writeByte_eq hcall]
    split
    next he =>
      rw [if_pos ((Execution.writeResult_eq_iff e).mpr he)] at h'
      have hb' : c'.memory.load? c'.regs.rsp = some b := by
        rw [h'.load?_buffer, hstack, h'.rsp, ← h.rsp, ← h.load?_buffer, hb]
      obtain ⟨n', c'', rip'', calls', e', hreach', hrest⟩ := ih e left hcall he h' hb' (calls + 1)
      exact ⟨_, c'', rip'', calls', e', hreach.trans hreach', hrest⟩
    next he =>
      rw [if_neg (mt (Execution.writeResult_eq_iff e).mp he)] at h'
      exact ⟨n, c', rip', calls + 1, e, hreach, h', hrax, rfl⟩

end At

end Process

end TapeLang.Module
