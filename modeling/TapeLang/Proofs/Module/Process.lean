import TapeLang.Proofs.Module.Execution

/-!
# Processes realize their programs

The code of a program, running as a process, reads and writes as the interpreter does, and exits with a
status that says how the program ended.
-/

namespace TapeLang.Module

open X86 Assembly Transition Native Native.SystemCalls

/-- The exit status for an ending, if it is one a program can have on a tape with cells. -/
def exitStatus? : Ending → Option Nat
  | .finished => some 0
  | .faulted (.outOfTape _ _) => some 1
  | .faulted (.channel _) => some 2
  | .noCell => none

namespace Process

variable {P : Process} {xs ys : List (Item Label)} {t t' : Tape} {c : Core} {rip : UInt64}

namespace At

theorem bound {l : Label} (h : P.At (.bind l :: xs) t c rip) :
    P.loaded.Bound l (.bind l :: xs) := by
  obtain ⟨front, hitems, -⟩ := h.items
  exact P.compiled.bound hitems

/-- The process exits with a status once the code has got to an exit. -/
theorem exits {l : Label} {status : UInt32} (h : P.At xs t c rip) (v : Execution)
    (hexit : Compiled.LeavesBy P.loaded l (.movImm32 .rdi status) exitItems)
    (hlead : ∀ {target}, P.loaded.Bound l target →
      ∃ n flags, Leads P.loaded n xs c target (c.setFlags flags)) :
    ∃ n v', Reaches P.next? n { v with machine := c.at rip } v' ∧
      Execution.step P.scratch v' = .exited (status.toNat % 256) v.input v.output := by
  obtain ⟨target, hbound, hleave⟩ := hexit
  obtain ⟨n, flags, hto⟩ := hlead hbound
  obtain ⟨n', hfrom⟩ := hleave (Core.execute?_movImm32 (c.setFlags flags) .rdi status)
  have hlast : ∀ d : Core, Leads P.loaded 1 exitItems d [.plain .syscall]
      (d.setReg .rax exitNumber.toUInt64) := fun d =>
    .plain rfl (Core.execute?_movImm32 d .rax exitNumber) .refl
  obtain ⟨rip', hreach, hat, hcode⟩ :=
    (hto.trans (hfrom.trans (hlast _))).reaches (P.next?_of_machine v) h.items h.code
  obtain ⟨rip'', -, hstep⟩ := Execution.step_syscall P.scratch hat hcode v
  refine ⟨_, _, hreach, hstep.trans ?_⟩
  rw [Execution.systemCall_exit P.scratch rfl v rip'']
  exact congrArg (fun status => ExecutionStep.exited (status % 256) v.input v.output)
    (UInt32.toNat_toUInt64 status)

/-! What the code makes of a result. -/

theorem address_buffer (c : Core) : c.regs.address buffer = c.regs.rsp := by
  have haddress : c.regs.address buffer = c.regs.rsp + 0 + 0 := rfl
  rw [haddress, UInt64.add_zero, UInt64.add_zero]

theorem leads_test {n : Nat} {value : UInt64} {d : Core} (hrax : c.regs.rax = value)
    (h : Leads P.loaded n xs (c.setFlags (logicFlags .word value)) ys d) :
    Leads P.loaded (n + 1) (.plain (.test .rax .rax) :: xs) c ys d := by
  subst hrax
  exact .plain rfl (Core.execute?_test c .rax) h

theorem leads_readFailed {f : Failure} {io : Label} {target : List (Item Label)}
    (hrax : c.regs.rax = failureResult f) (hio : P.loaded.Bound io target)
    (rest : List (Item Label)) :
    ∃ n flags, Leads P.loaded n (.plain (.test .rax .rax) :: .branch .sign io :: rest) c target
      (c.setFlags flags) :=
  ⟨_, _, leads_test hrax (.taken (Execution.negative_failureResult f) hio .refl)⟩

private theorem leads_ended {eof : Label} {target : List (Item Label)} (hrax : c.regs.rax = 0)
    (heof : P.loaded.Bound eof target) (io : Label) (rest : List (Item Label)) :
    ∃ n flags, Leads P.loaded n
      (.plain (.test .rax .rax) :: .branch .sign io :: .branch .equal eof :: rest) c target
      (c.setFlags flags) :=
  ⟨_, _, leads_test hrax (.passed rfl (.taken rfl heof .refl))⟩

/-- The byte that was read is taken out of the buffer. -/
theorem leads_byte {b : UInt8} (hrax : c.regs.rax = 1) (hb : c.memory.load? c.regs.rsp = some b)
    (eof io : Label) (rest : List (Item Label)) :
    ∃ n flags, Leads P.loaded n (.plain (.test .rax .rax) :: .branch .sign io ::
        .branch .equal eof :: .plain (.loadByte .rax buffer) :: rest) c rest
      ⟨c.regs.set .rax b.toUInt64, flags, c.memory⟩ := by
  have hload : (c.setFlags (logicFlags .word 1)).memory.load?
      ((c.setFlags (logicFlags .word 1)).regs.address buffer) = some b := by
    rw [address_buffer]
    exact hb
  exact ⟨_, _, leads_test hrax (.passed rfl (.passed rfl
    (.plain rfl (Core.execute?_loadByte hload) .refl)))⟩

/-- The byte to write is put into the buffer. -/
theorem buffers {b : UInt8} (h : P.At (.plain (.storeByte buffer .rax) :: xs) t c rip)
    (hrax : c.regs.rax.toUInt8 = b) (v : Execution) :
    ∃ c' rip', Reaches P.next? 1 { v with machine := c.at rip } { v with machine := c'.at rip' } ∧
      P.At xs t c' rip' ∧ c'.memory.load? c'.regs.rsp = some b := by
  have hstore : c.memory.store? (c.regs.address buffer) (c.regs.get .rax).toUInt8 =
      some { c.memory with stack := c.memory.stack.store c.regs.rsp c.regs.rax.toUInt8 } := by
    rw [address_buffer]
    exact h.store?_buffer _
  have hlead : Leads P.loaded 1 _ c xs _ := .plain rfl (Core.execute?_storeByte hstore) .refl
  obtain ⟨rip', hreach, hat, hcode⟩ := hlead.reaches (P.next?_of_machine v) h.items h.code
  have hholds := h.holds
  have h' : P.At xs t _ rip' := ⟨hat, hcode, ⟨hholds.tape, hholds.rbx, hholds.r12, hholds.r13,
    hholds.onCell, hholds.small⟩, h.capacity, h.rsp, h.context, h.stack.1,
    (Region.size_store ..).trans h.stack.2⟩
  refine ⟨_, rip', hreach, h', ?_⟩
  rw [h'.load?_buffer, ← hrax]
  exact Region.load?_store_self _ h.contains_buffer

/-- Only a call that took the byte lets the code go on. -/
theorem leads_written {e : OutputEvent} {io : Label} {target : List (Item Label)}
    (hrax : c.regs.rax = Execution.writeResult e) (hio : P.loaded.Bound io target)
    (rest : List (Item Label)) :
    ∃ n flags, Leads P.loaded n (.plain (.test .rax .rax) :: .branch .lessOrEqual io :: rest) c
      (if e.outcome.isOk then rest else target) (c.setFlags flags) := by
  cases e with
  | taken => exact ⟨_, _, leads_test hrax (.passed rfl .refl)⟩
  | refused => exact ⟨_, _, leads_test hrax (.taken rfl hio .refl)⟩
  | failed f =>
    have hcond : Cond.holds .lessOrEqual
        (c.setFlags (logicFlags .word (failureResult f))).flags = true := by
      simp [Cond.holds, Core.setFlags, logicFlags, Execution.negative_failureResult f]
    exact ⟨_, _, leads_test hrax (.taken hcond hio .refl)⟩

end At

/-! A process realizes its program. -/

/-- The process is about to run some items in a world. -/
def Stands (P : Process) (xs : List (Item Label)) (w : World) (v : Execution) : Prop :=
  ∃ c rip, v.machine = c.at rip ∧ P.At xs w.tape c rip ∧ v.input = w.input ∧ v.output = w.output

/-- The process exits with the status of an ending. -/
def Stopped (P : Process) (e : Ending) (w : World) (v : Execution) : Prop :=
  ∃ status, exitStatus? e = some status ∧
    Execution.step P.scratch v = .exited status w.input w.output

theorem stands_lead {k : Nat} {w : World} {v : Execution} (h : P.Stands xs w v)
    (hcapacity : t.capacity = w.tape.capacity)
    (harrives : ∀ c, Holds P.loaded.address w.tape c →
      Arrives P.loaded P.loaded.address k xs c ys t) :
    ∃ n v', k ≤ n ∧ Reaches P.next? n v v' ∧ P.Stands ys { w with tape := t } v' := by
  obtain ⟨m, input, output, calls⟩ := v
  obtain ⟨c, rip, rfl, hat, rfl, rfl⟩ := h
  obtain ⟨n, c', rip', hk, hreach, hat'⟩ :=
    hat.arrives ⟨c.at rip, w.input, w.output, calls⟩ (harrives c hat.holds) hcapacity
  exact ⟨n, _, hk, hreach, c', rip', rfl, hat', rfl, rfl⟩

/-- Reading, up to what the code makes of the result. -/
theorem stands_reads {index : Nat} {w : World} {v : Execution}
    (hi : P.program[index]? = some .input) (h : P.Stands (P.frame.tail P.program index) w v) :
    ∃ eof rest target, P.loaded.Bound eof target ∧
      (∀ {base t c b}, Holds base t c → c.regs.rax.toUInt8 = b →
        Arrives P.loaded base 0 rest c (P.frame.tail P.program (index + 1)) (t.set b)) ∧
      (∀ {base t c}, Holds base t c → Arrives P.loaded base 0 target c
        (P.frame.tail P.program (index + 1)) (Action.receive P.frame.policy t none)) ∧
      ∃ n c' rip' calls e, Reaches P.next? n v ⟨c'.at rip', w.input.readByte.2, w.output, calls⟩ ∧
        P.At (.plain (.test .rax .rax) :: .branch .sign P.frame.io :: .branch .equal eof ::
          .plain (.loadByte .rax buffer) :: rest) w.tape c' rip' ∧
        c'.regs.rax = Execution.readResult e ∧ w.input.readByte.1 = e.outcome ∧
        ∀ b, e = .byte b → c'.memory.load? c'.regs.rsp = some b := by
  obtain ⟨m, input, output, calls⟩ := v
  obtain ⟨c, rip, rfl, hat, rfl, rfl⟩ := h
  obtain ⟨s, rest, target, htail, heof, hbyte, hend⟩ := P.compiled.arrives_input hi
  rw [htail, reading_eq P.environment, List.append_assoc] at hat
  exact ⟨s.next, rest, target, heof, hbyte, hend,
    hat.skip.reads hat.skip.bound ⟨c.at rip, w.input, w.output, calls⟩⟩

theorem stands_read {index : Nat} {w : World} {v : Execution} {b? : Option UInt8} {left : Input}
    (hi : P.program[index]? = some .input) (h : P.Stands (P.frame.tail P.program index) w v)
    (hread : w.input.readByte = (.ok b?, left)) :
    ∃ n v', Reaches P.next? n v v' ∧ P.Stands (P.frame.tail P.program (index + 1))
      ⟨Action.receive P.frame.policy w.tape b?, left, w.output⟩ v' := by
  obtain ⟨eof, rest, target, heof, hbyte, hend, n₁, c₁, rip₁, calls, e, hreach₁, h₁, hrax, houtcome,
    hbuffer⟩ := stands_reads hi h
  rw [hread] at hreach₁ houtcome
  have hgoal : ∃ n c' rip', Reaches P.next? n ⟨c₁.at rip₁, left, w.output, calls⟩
      ⟨c'.at rip', left, w.output, calls⟩ ∧
      P.At (P.frame.tail P.program (index + 1)) (Action.receive P.frame.policy w.tape b?) c' rip' := by
    cases e with
    | byte b =>
      obtain rfl := Except.ok.inj houtcome
      obtain ⟨n₂, flags, hlead⟩ := At.leads_byte (P := P) hrax (hbuffer b rfl) eof P.frame.io rest
      obtain ⟨hholds, hkept⟩ := h₁.holds.setRax b.toUInt64 flags
      obtain ⟨rip₂, hreach₂, h₂⟩ :=
        h₁.reaches ⟨c₁.at rip₁, left, w.output, calls⟩ hlead hholds hkept rfl
      obtain ⟨n₃, c₃, rip₃, -, hreach₃, h₃⟩ := h₂.arrives ⟨c₁.at rip₁, left, w.output, calls⟩
        (hbyte h₂.holds (UInt8.toUInt8_toUInt64 b)) (Action.capacity_receive P.frame.policy _ (some b))
      exact ⟨_, c₃, rip₃, hreach₂.trans hreach₃, h₃⟩
    | ended =>
      obtain rfl := Except.ok.inj houtcome
      obtain ⟨n₂, flags, hlead⟩ := At.leads_ended (P := P) hrax heof P.frame.io
        (.plain (.loadByte .rax buffer) :: rest)
      obtain ⟨rip₂, hreach₂, h₂⟩ := h₁.reaches ⟨c₁.at rip₁, left, w.output, calls⟩ hlead
        (h₁.holds.setFlags flags) (.setFlags c₁ flags) rfl
      obtain ⟨n₃, c₃, rip₃, -, hreach₃, h₃⟩ := h₂.arrives ⟨c₁.at rip₁, left, w.output, calls⟩
        (hend h₂.holds) (Action.capacity_receive ..)
      exact ⟨_, c₃, rip₃, hreach₂.trans hreach₃, h₃⟩
    | failed f => cases houtcome
  obtain ⟨n₂, c', rip', hreach₂, h'⟩ := hgoal
  exact ⟨_, _, hreach₁.trans hreach₂, c', rip', rfl, h', rfl, rfl⟩

theorem stopped_readFailed {index : Nat} {w : World} {v : Execution} {f : Failure} {left : Input}
    (hi : P.program[index]? = some .input) (h : P.Stands (P.frame.tail P.program index) w v)
    (hread : w.input.readByte = (.error f, left)) :
    ∃ n v', Reaches P.next? n v v' ∧
      P.Stopped (.faulted (.channel f)) { w with input := left } v' := by
  obtain ⟨eof, rest, target, -, -, -, n₁, c₁, rip₁, calls, e, hreach₁, h₁, hrax, houtcome, -⟩ :=
    stands_reads hi h
  rw [hread] at hreach₁ houtcome
  cases e with
  | byte b => cases houtcome
  | ended => cases houtcome
  | failed f' =>
    obtain ⟨n₂, v', hreach₂, hstep⟩ := h₁.exits ⟨c₁.at rip₁, left, w.output, calls⟩
      (leavesBy_exit P.capacity P.compiled P.environment).2.2 fun hio =>
        At.leads_readFailed hrax hio _
    exact ⟨_, v', hreach₁.trans hreach₂, 2, rfl, hstep⟩

/-- Writing, up to what the code makes of the result. -/
theorem stands_writes {index : Nat} {w : World} {v : Execution} {b : UInt8}
    (hi : P.program[index]? = some .output) (h : P.Stands (P.frame.tail P.program index) w v)
    (hb : w.tape.get? = some b) :
    ∃ n c' rip' calls e, Reaches P.next? n v
        ⟨c'.at rip', w.input, (w.output.writeByte b).2, calls⟩ ∧
      P.At (.plain (.test .rax .rax) :: .branch .lessOrEqual P.frame.io ::
        P.frame.tail P.program (index + 1)) w.tape c' rip' ∧
      c'.regs.rax = Execution.writeResult e ∧ (w.output.writeByte b).1 = e.outcome := by
  obtain ⟨m, input, output, calls⟩ := v
  obtain ⟨c, rip, rfl, hat, rfl, rfl⟩ := h
  obtain ⟨s, htail⟩ := P.compiled.tail_output hi
  rw [htail, writing_eq P.environment, List.cons_append, List.cons_append, List.append_assoc] at hat
  obtain ⟨rip₁, hreach₁, h₁⟩ := hat.skip.sets ⟨c.at rip, w.input, w.output, calls⟩ rfl
    (Core.execute?_loadByte (hat.holds.load?_cell.trans hb)) (by decide)
  obtain ⟨c₂, rip₂, hreach₂, h₂, hb₂⟩ :=
    h₁.buffers (UInt8.toUInt8_toUInt64 b) ⟨c.at rip, w.input, w.output, calls⟩
  obtain ⟨n₃, c₃, rip₃, calls₃, e, hreach₃, h₃⟩ :=
    h₂.writes h₂.bound hb₂ ⟨c.at rip, w.input, w.output, calls⟩
  exact ⟨_, c₃, rip₃, calls₃, e, hreach₁.trans (hreach₂.trans hreach₃), h₃⟩

theorem stands_write {index : Nat} {w : World} {v : Execution} {b : UInt8} {left : Output}
    (hi : P.program[index]? = some .output) (h : P.Stands (P.frame.tail P.program index) w v)
    (hb : w.tape.get? = some b) (hwrite : w.output.writeByte b = (.ok (), left)) :
    ∃ n v', Reaches P.next? n v v' ∧
      P.Stands (P.frame.tail P.program (index + 1)) { w with output := left } v' := by
  obtain ⟨n₁, c₁, rip₁, calls, e, hreach₁, h₁, hrax, houtcome⟩ := stands_writes hi h hb
  rw [hwrite] at hreach₁ houtcome
  obtain ⟨target, hio, -⟩ := (leavesBy_exit P.capacity P.compiled P.environment).2.2
  obtain ⟨n₂, flags, hlead⟩ := At.leads_written hrax hio (P.frame.tail P.program (index + 1))
  rw [← houtcome] at hlead
  obtain ⟨rip₂, hreach₂, h₂⟩ := h₁.reaches ⟨c₁.at rip₁, w.input, left, calls⟩ hlead
    (h₁.holds.setFlags flags) (.setFlags c₁ flags) rfl
  exact ⟨_, _, hreach₁.trans hreach₂, _, rip₂, rfl, h₂, rfl, rfl⟩

theorem stopped_writeFailed {index : Nat} {w : World} {v : Execution} {b : UInt8} {f : Failure}
    {left : Output} (hi : P.program[index]? = some .output)
    (h : P.Stands (P.frame.tail P.program index) w v)
    (hb : w.tape.get? = some b) (hwrite : w.output.writeByte b = (.error f, left)) :
    ∃ n v', Reaches P.next? n v v' ∧
      P.Stopped (.faulted (.channel f)) { w with output := left } v' := by
  obtain ⟨n₁, c₁, rip₁, calls, e, hreach₁, h₁, hrax, houtcome⟩ := stands_writes hi h hb
  rw [hwrite] at hreach₁ houtcome
  obtain ⟨n₂, v', hreach₂, hstep⟩ := h₁.exits ⟨c₁.at rip₁, w.input, left, calls⟩
    (leavesBy_exit P.capacity P.compiled P.environment).2.2 fun {target} hio => by
      have hlead := At.leads_written hrax hio (P.frame.tail P.program (index + 1))
      rwa [← houtcome] at hlead
  exact ⟨_, v', hreach₁.trans hreach₂, 2, rfl, hstep⟩

theorem stopped_refused {s : Site} {w : World} {v : Execution}
    (h : P.Stands ((P.frame.record s).1 ++ .jump P.frame.bounds :: xs) w v) :
    ∃ n v', Reaches P.next? n v v' ∧
      P.Stopped (.faulted (.outOfTape s.index w.tape.pointer)) w v' := by
  obtain ⟨m, input, output, calls⟩ := v
  obtain ⟨c, rip, rfl, hat, rfl, rfl⟩ := h
  rw [record_eq P.environment, List.nil_append] at hat
  obtain ⟨n, v', hreach, hstep⟩ := hat.exits ⟨c.at rip, w.input, w.output, calls⟩
    (leavesBy_exit P.capacity P.compiled P.environment).2.1 fun hbounds =>
      ⟨_, c.flags, .jump hbounds .refl⟩
  exact ⟨_, v', hreach, 1, rfl, hstep⟩

theorem stopped_finished {w : World} {v : Execution}
    (h : P.Stands (P.frame.tail P.program P.program.length) w v) :
    ∃ n v', Reaches P.next? n v v' ∧ P.Stopped .finished w v' := by
  obtain ⟨m, input, output, calls⟩ := v
  obtain ⟨c, rip, rfl, hat, rfl, rfl⟩ := h
  rw [Frame.tail_length, Frame.ending] at hat
  obtain ⟨n, v', hreach, hstep⟩ := hat.skip.exits ⟨c.at rip, w.input, w.output, calls⟩
    (leavesBy_exit P.capacity P.compiled P.environment).1 fun hok =>
      ⟨_, c.flags, .jump hok .refl⟩
  exact ⟨_, v', hreach, 0, rfl, hstep⟩

theorem realization (P : Process) :
    Realization P.frame P.program P.loaded P.loaded.address P.next? P.Stands P.Stopped where
  compiled := P.compiled
  onCell := by
    rintro xs w v ⟨c, rip, -, hat, -⟩
    exact hat.holds.onCell
  stop := by
    rintro e w v ⟨status, -, hstep⟩
    simp only [next?, Execution.next?, hstep]
  lead := stands_lead
  read := stands_read
  readFailed := stopped_readFailed
  write := stands_write
  writeFailed := stopped_writeFailed
  refused := fun _ => stopped_refused
  finished := stopped_finished

end Process

end TapeLang.Module
