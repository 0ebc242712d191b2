import TapeLang.Proofs.Native.Invocation
import TapeLang.Proofs.Native.Realization

/-!
# Compiled programs refine the interpreter

A call of a compiled program ends exactly when the interpreter does, with the same ending, tape and
channels, and never crashes.
-/

namespace TapeLang.Native

open X86 Assembly Transition HostCalls

/-- A call of a program's code by a host, and what the registers to be saved held. -/
structure Call where
  host : Host
  loaded : Loaded
  frame : Frame
  program : List Instruction
  capacity : Nat
  saved : Reg → UInt64
  /-- The pointer in the context, which the code reads at the start. -/
  start : UInt64
  compiled : Compiled frame program loaded
  environment : frame.environment = HostCalls.environment
  sound : host.place.Sound loaded.code.bytes.size capacity
  base_eq : loaded.code.base = host.place.code
  answers : host.Answers

namespace Call

variable {K : Call} {xs ys : List (Item Label)} {t t' : Tape} {c : Core} {rip fault : UInt64}

abbrev place (K : Call) : Placement :=
  K.host.place

theorem beyond (K : Call) : Invocation.Beyond K.place K.loaded.code where
  caller := Code.fetch?_outside (by rw [K.base_eq]; exact K.sound.caller)
  readEntry := Code.fetch?_outside (by rw [K.base_eq]; exact K.sound.readEntry)
  writeEntry := Code.fetch?_outside (by rw [K.base_eq]; exact K.sound.writeEntry)

abbrev next? (K : Call) : Invocation → Option Invocation :=
  Invocation.next? K.host

/-- The code is at some items, with a tape, and everything else in place. -/
structure At (K : Call) (xs : List (Item Label)) (t : Tape) (fault : UInt64) (c : Core) (rip : UInt64) :
    Prop where
  items : K.loaded.At xs rip
  code : c.memory.code = K.loaded.code
  inside : Inside K.place K.capacity K.saved K.start fault c
  holds : Holds K.place.tape t c
  capacity : t.capacity = K.capacity

theorem next?_of_machine (K : Call) (v : Invocation) (m m' : Machine)
    (hcode : m.memory.code = K.loaded.code) (h : m.next? = some m') :
    K.next? { v with machine := m } = some { v with machine := m' } :=
  Invocation.next?_of_machine (hcode ▸ K.beyond) h ..

/-- Fragments run in a call. -/
theorem At.reaches {n : Nat} {c' : Core} (h : K.At xs t fault c rip) (v : Invocation)
    (hlead : Leads K.loaded n xs c ys c') (hholds : Holds K.place.tape t' c') (hkept : Kept c c')
    (hcapacity : t'.capacity = t.capacity) :
    ∃ rip', Reaches K.next? n { v with machine := c.at rip } { v with machine := c'.at rip' } ∧
      K.At ys t' fault c' rip' := by
  obtain ⟨rip', hreach, hat, hcode⟩ := hlead.reaches (K.next?_of_machine v) h.items h.code
  have hcapacity' := hcapacity.trans h.capacity
  exact ⟨rip', hreach, hat, hcode, h.inside.kept hkept hholds hcapacity', hholds, hcapacity'⟩

/-! Leaving. -/

theorem contextWord_eq {v : Invocation} {offset : Int32} {front back : Bytes} {base w : UInt64}
    (hcontext : v.machine.memory.context = ⟨base, (front ++ Bytes.ofUInt64 w ++ back).toArray⟩)
    (hoffset : signExtend offset = UInt64.ofNat front.length) (hfront : front.length < UInt64.size) :
    CompiledProgram.contextWord v offset = w.toNat := by
  have hwindow : v.machine.memory.context.window
      (v.machine.memory.context.base + signExtend offset) 8 = Bytes.ofUInt64 w := by
    rw [Region.window, hoffset, Region.index_offset hfront, hcontext]
    simp
  have hlt : w.toNat < 256 ^ 8 := w.toNat_lt
  rw [CompiledProgram.contextWord, hwindow, Bytes.ofUInt64, Bytes.toNat_ofNat, Nat.mod_eq_of_lt hlt]

/-- The pointer and the index of a refused move, as the caller finds them. -/
theorem contextWord_contextOf {v : Invocation} {place : Placement} {pointer fault : UInt64}
    (hcontext : v.machine.memory.context =
      ⟨place.context, (contextOf place pointer fault).toArray⟩) :
    CompiledProgram.contextWord v pointerField = pointer.toNat ∧
      CompiledProgram.contextWord v faultField = fault.toNat := by
  have hlength : (Inside.callbackBytes place).length = 24 := by simp [Inside.callbackBytes]
  have hshort : (Inside.callbackBytes place).length < UInt64.size := by
    rw [hlength]
    decide
  constructor
  · exact contextWord_eq hcontext (Inside.signExtend_pointerField place) hshort
  · have hcut : contextOf place pointer fault =
        (Inside.callbackBytes place ++ Bytes.ofUInt64 pointer) ++ Bytes.ofUInt64 fault ++ [] := by
      rw [List.append_nil]
      rfl
    rw [hcut] at hcontext
    refine contextWord_eq hcontext (Inside.signExtend_faultField place pointer) ?_
    rw [List.length_append, hlength, Bytes.length_ofUInt64]
    decide

/-- The call has returned a status, with a tape in memory and the index of a refused move in the
context. -/
structure Left (K : Call) (t : Tape) (status : UInt32) (fault : UInt64) (v : Invocation) : Prop where
  step : Invocation.step K.host v = .returned status v
  cells : v.machine.memory.tape.bytes = t.cells
  pointer : CompiledProgram.contextWord v pointerField = t.pointer
  index : CompiledProgram.contextWord v faultField = fault.toNat
  onCell : t.OnCell

theorem next?_ret {L : Loaded} {rest : List (Item Label)} {rip base back : UInt64} {low frame : Bytes}
    {c : Core} (hat : L.At (.plain .ret :: rest) rip) (hcode : c.memory.code = L.code)
    (h : StackAt base low (Bytes.ofUInt64 back ++ frame) c) (sep : c.memory.Separate) :
    (c.at rip).next? = some ((c.setReg .rsp (c.regs.rsp + 8)).at back) := by
  rw [Core.next?_of_fetch (hat.fetch_plain hcode) (by simp)]
  simp only [Machine.execute?, Machine.pop?, Core.at, h.loadWord? sep, Option.map_some]
  rfl

theorem At.leaves {status : UInt32} (h : K.At leaveItems t fault c rip) (v : Invocation)
    (hrax : c.regs.rax = status.toUInt64) :
    ∃ n m, Reaches K.next? n { v with machine := c.at rip } { v with machine := m } ∧
      K.Left t status fault { v with machine := m } := by
  obtain ⟨memory, hstore, htape, hinside⟩ := h.inside.store_pointer K.sound pointerReg
  have hsep := hinside.separate K.sound
  obtain ⟨low, hlow, hstack⟩ := hinside.stack
  obtain ⟨low', c', hpops, hstack', hmemory, -, hkeep⟩ :=
    Leads.pops (L := K.loaded) [.plain .ret] (by decide) hstack hsep
  have hlead : Leads K.loaded _ leaveItems c [.plain .ret] c' := .plain rfl hstore hpops
  obtain ⟨rip', hreach, hat, hcode⟩ := hlead.reaches (K.next?_of_machine v) h.items h.code
  have hret := next?_ret hat hcode (by rwa [List.append_nil]) (by rwa [hmemory])
  have hlast := K.next?_of_machine v _ _ hcode hret
  have hcontext : c'.memory.context = _ := (congrArg Memory.context hmemory).trans hinside.context
  have hwords := contextWord_contextOf
    (v := { v with machine := (c'.setReg .rsp (c'.regs.rsp + 8)).at K.place.caller }) hcontext
  refine ⟨_, _, hreach.trans (.single hlast), ?_, ?_, ?_, hwords.2, h.holds.onCell⟩
  · have hstatus : c'.regs.rax = status.toUInt64 :=
      (hkeep .rax (by decide) (by decide)).trans hrax
    rw [Invocation.step_caller rfl]
    show InvocationStep.returned c'.regs.rax.toUInt32 _ = _
    rw [hstatus, UInt32.toUInt32_toUInt64]
  · show c'.memory.tape.bytes = _
    rw [hmemory]
    exact (congrArg Region.bytes htape).trans (congrArg Region.bytes h.holds.tape)
  · have hpointer : c.regs.get pointerReg = UInt64.ofNat t.pointer := h.holds.r12
    rw [hwords.1, hpointer, UInt64.toNat_ofNat_of_lt' h.holds.pointer_lt]

/-- The code leaves with a status once it has got to an exit. -/
theorem At.exits {l : Label} {status : UInt32} (h : K.At xs t fault c rip) (v : Invocation)
    (hexit : ExitsWith K.loaded l status)
    (hlead : ∀ {target}, K.loaded.Bound l target →
      ∃ n flags, Leads K.loaded n xs c target (c.setFlags flags)) :
    ∃ n m, Reaches K.next? n { v with machine := c.at rip } { v with machine := m } ∧
      K.Left t status fault { v with machine := m } := by
  obtain ⟨target, hbound, hleave⟩ := hexit
  obtain ⟨n, flags, hto⟩ := hlead hbound
  obtain ⟨n', flags', hfrom⟩ := hleave (c.setFlags flags)
  obtain ⟨hholds, hkept⟩ := (h.holds.setFlags flags).setRax status.toUInt64 flags'
  obtain ⟨rip', hreach, hat⟩ :=
    h.reaches v (hto.trans hfrom) hholds ((Kept.setFlags c flags).trans hkept) rfl
  obtain ⟨k, m, hreach', hleft⟩ := hat.leaves v rfl
  exact ⟨_, m, hreach.trans hreach', hleft⟩

/-! Calling back. -/

/-- Instructions that set a register the code does not rely on. -/
theorem At.sets {i : Instr} {r : Reg} {w : UInt64} (h : K.At (.plain i :: xs) t fault c rip)
    (v : Invocation) (hi : i.isStraight = true) (hexecute : c.execute? i = some (c.setReg r w))
    (hr : r ∉ .rsp :: HostCalls.saved) :
    ∃ rip', Reaches K.next? 1 { v with machine := c.at rip }
        { v with machine := (c.setReg r w).at rip' } ∧ K.At xs t fault (c.setReg r w) rip' := by
  have hlead : Leads K.loaded 1 (.plain i :: xs) c xs (c.setReg r w) := .plain hi hexecute .refl
  obtain ⟨rip', hreach, hat, hcode⟩ := hlead.reaches (K.next?_of_machine v) h.items h.code
  have hinside : [Reg.r14, .rsp] ⊆ .rsp :: HostCalls.saved := by decide
  have hholds : [Reg.rbx, .r12, .r13] ⊆ .rsp :: HostCalls.saved := by decide
  exact ⟨rip', hreach, hat, hcode, h.inside.setReg (fun hmem => hr (hinside hmem)) w,
    h.holds.setReg (fun hmem => hr (hholds hmem)) w, h.capacity⟩

theorem At.reads {s : Site} (h : K.At ((K.frame.reading s).1 ++ xs) t fault c rip) (v : Invocation) :
    ∃ n c' rip', Reaches K.next? n { v with machine := c.at rip }
        ⟨c'.at rip', v.input.readByte.2, v.output,
          Invocation.failureAfter v.input.readByte.1 v.failure, v.callbacks + 1⟩ ∧
      K.At (.plain (.test32 .rax .rax) :: .branch .sign K.frame.io ::
        .plain (.aluImm32 .cmp .rax endOfInput) :: .branch .equal s.next :: xs) t fault c' rip' ∧
      c'.regs.rax.toNat % 2 ^ 32 =
        (Invocation.readReply v.input.readByte.1).toUInt32.toNat := by
  rw [reading_eq K.environment] at h
  obtain ⟨rip₁, hload, h₁⟩ :=
    h.sets v rfl (Core.execute?_load (h.inside.loadWord?_host K.sound)) (by decide)
  obtain ⟨c', rip', hcall, hat, hcode, hinside, hholds, hrax⟩ :=
    Invocation.reaches_callback K.answers K.sound K.beyond h₁.items h₁.code h₁.inside h₁.holds
      (h₁.inside.loadWord?_readEntry K.sound) (.inl rfl) fun m hrip hrdi _ =>
        Invocation.step_read K.sound hrip hrdi v.output v.failure v.callbacks
  exact ⟨_, c', rip', hload.trans hcall, ⟨hat, hcode, hinside, hholds, h.capacity⟩, hrax⟩

theorem At.writes {s : Site} {b : UInt8} (h : K.At ((K.frame.writing s).1 ++ xs) t fault c rip)
    (hb : t.get? = some b) (v : Invocation) :
    ∃ n c' rip', Reaches K.next? n { v with machine := c.at rip }
        ⟨c'.at rip', v.input, (v.output.writeByte b).2,
          Invocation.failureAfter (v.output.writeByte b).1 v.failure, v.callbacks + 1⟩ ∧
      K.At (.plain (.test32 .rax .rax) :: .branch .notEqual K.frame.io :: xs) t fault c' rip' ∧
      c'.regs.rax.toNat % 2 ^ 32 =
        (Invocation.writeReply (v.output.writeByte b).1).toUInt32.toNat := by
  rw [writing_eq K.environment] at h
  obtain ⟨rip₁, hload, h₁⟩ :=
    h.sets v rfl (Core.execute?_load (h.inside.loadWord?_host K.sound)) (by decide)
  obtain ⟨rip₂, hload', h₂⟩ :=
    h₁.sets v rfl (Core.execute?_loadByte (h₁.holds.load?_cell.trans hb)) (by decide)
  obtain ⟨c', rip', hcall, hat, hcode, hinside, hholds, hrax⟩ :=
    Invocation.reaches_callback K.answers K.sound K.beyond h₂.items h₂.code h₂.inside h₂.holds
      (h₂.inside.loadWord?_writeEntry K.sound) (.inr rfl) fun m hrip hrdi hrsi =>
        Invocation.step_write K.sound hrip hrdi hrsi v.input v.failure v.callbacks
  exact ⟨_, c', rip', hload.trans (hload'.trans hcall), ⟨hat, hcode, hinside, hholds, h.capacity⟩,
    hrax⟩

/-! A call realizes its program. -/

/-- The call is about to run some items in a world. -/
def Stands (K : Call) (xs : List (Item Label)) (w : World) (v : Invocation) : Prop :=
  ∃ c rip, v.machine = c.at rip ∧ K.At xs w.tape 0 c rip ∧ v.input = w.input ∧ v.output = w.output

/-- The call has returned from a world, with what means an ending. -/
def Stopped (K : Call) (e : Ending) (w : World) (v : Invocation) : Prop :=
  ∃ status fault, K.Left w.tape status fault v ∧ v.input = w.input ∧ v.output = w.output ∧
    CompiledProgram.ending status fault.toNat w.tape.pointer v.failure = e

private theorem Left.next?_eq_none {status : UInt32} {v : Invocation} (h : K.Left t status fault v) :
    K.next? v = none := by
  simp only [next?, Invocation.next?, h.step]

theorem At.skip {l : Label} (h : K.At (.bind l :: xs) t fault c rip) : K.At xs t fault c rip :=
  ⟨h.items.next_bind, h.code, h.inside, h.holds, h.capacity⟩

theorem At.arrives {k : Nat} (h : K.At xs t fault c rip) (v : Invocation)
    (harrives : Arrives K.loaded K.place.tape k xs c ys t') (hcapacity : t'.capacity = t.capacity) :
    ∃ n c' rip', k ≤ n ∧
      Reaches K.next? n { v with machine := c.at rip } { v with machine := c'.at rip' } ∧
      K.At ys t' fault c' rip' := by
  obtain ⟨n, c', hk, hlead, hholds, hkept⟩ := harrives
  obtain ⟨rip', hreach, hat⟩ := h.reaches v hlead hholds hkept hcapacity
  exact ⟨n, c', rip', hk, hreach, hat⟩

theorem stands_lead {k : Nat} {w : World} {v : Invocation} (h : K.Stands xs w v)
    (hcapacity : t.capacity = w.tape.capacity)
    (harrives : ∀ c, Holds K.place.tape w.tape c → Arrives K.loaded K.place.tape k xs c ys t) :
    ∃ n v', k ≤ n ∧ Reaches K.next? n v v' ∧ K.Stands ys { w with tape := t } v' := by
  obtain ⟨m, input, output, failure, callbacks⟩ := v
  obtain ⟨c, rip, rfl, hat, rfl, rfl⟩ := h
  obtain ⟨n, c', rip', hk, hreach, hat'⟩ :=
    hat.arrives ⟨c.at rip, w.input, w.output, failure, callbacks⟩ (harrives c hat.holds) hcapacity
  exact ⟨n, _, hk, hreach, c', rip', rfl, hat', rfl, rfl⟩

theorem stands_read {index : Nat} {w : World} {v : Invocation} {b? : Option UInt8} {left : Input}
    (hi : K.program[index]? = some .input) (h : K.Stands (K.frame.tail K.program index) w v)
    (hread : w.input.readByte = (.ok b?, left)) :
    ∃ n v', Reaches K.next? n v v' ∧ K.Stands (K.frame.tail K.program (index + 1))
      ⟨Action.receive K.frame.policy w.tape b?, left, w.output⟩ v' := by
  obtain ⟨m, input, output, failure, callbacks⟩ := v
  obtain ⟨c, rip, rfl, hat, rfl, rfl⟩ := h
  obtain ⟨s, rest, target, htail, heof, hbyte, hend⟩ := K.compiled.arrives_input hi
  rw [htail] at hat
  obtain ⟨n₁, c₁, rip₁, hreach₁, h₁, hrax⟩ :=
    hat.skip.reads ⟨c.at rip, w.input, w.output, failure, callbacks⟩
  rw [hread] at hreach₁ hrax
  obtain ⟨n₂, flags, hlead⟩ := Invocation.leads_readOk hrax heof K.frame.io rest
  obtain ⟨rip₂, hreach₂, h₂⟩ := h₁.reaches ⟨c₁.at rip₁, left, w.output, failure, callbacks + 1⟩ hlead
    (h₁.holds.setFlags flags) (.setFlags c₁ flags) rfl
  have harrives : Arrives K.loaded K.place.tape 0 (if b?.isNone then target else rest)
      (c₁.setFlags flags) (K.frame.tail K.program (index + 1))
      (Action.receive K.frame.policy w.tape b?) := by
    cases b? with
    | none => exact hend h₂.holds
    | some b =>
      have hreply : (Invocation.readReply (.ok (some b))).toUInt32.toNat = b.toNat := by
        simp [Invocation.readReply]
      have hlow : c₁.regs.rax.toNat % 2 ^ 32 = b.toNat := hrax.trans hreply
      have hlt := b.toNat_lt
      refine hbyte h₂.holds (UInt8.toNat_inj.mp ?_)
      show c₁.regs.rax.toUInt8.toNat = _
      rw [UInt64.toNat_toUInt8]
      omega
  obtain ⟨n₃, c₃, rip₃, -, hreach₃, h₃⟩ :=
    h₂.arrives ⟨c₁.at rip₁, left, w.output, failure, callbacks + 1⟩ harrives
      (Action.capacity_receive ..)
  exact ⟨_, _, hreach₁.trans (hreach₂.trans hreach₃), c₃, rip₃, rfl, h₃, rfl, rfl⟩

theorem stopped_readFailed {index : Nat} {w : World} {v : Invocation} {f : Failure} {left : Input}
    (hi : K.program[index]? = some .input) (h : K.Stands (K.frame.tail K.program index) w v)
    (hread : w.input.readByte = (.error f, left)) :
    ∃ n v', Reaches K.next? n v v' ∧
      K.Stopped (.faulted (.channel f)) { w with input := left } v' := by
  obtain ⟨m, input, output, failure, callbacks⟩ := v
  obtain ⟨c, rip, rfl, hat, rfl, rfl⟩ := h
  obtain ⟨s, rest, target, htail, -⟩ := K.compiled.arrives_input hi
  rw [htail] at hat
  obtain ⟨n₁, c₁, rip₁, hreach₁, h₁, hrax⟩ :=
    hat.skip.reads ⟨c.at rip, w.input, w.output, failure, callbacks⟩
  rw [hread] at hreach₁ hrax
  obtain ⟨n₂, m, hreach₂, hleft⟩ := h₁.exits ⟨c₁.at rip₁, left, w.output, some f, callbacks + 1⟩
    (exitsWith K.compiled K.environment).2.2 fun hio => Invocation.leads_readFailed hrax hio _
  exact ⟨_, _, hreach₁.trans hreach₂, 2, 0, hleft, rfl, rfl, rfl⟩

theorem stands_write {index : Nat} {w : World} {v : Invocation} {b : UInt8} {left : Output}
    (hi : K.program[index]? = some .output) (h : K.Stands (K.frame.tail K.program index) w v)
    (hb : w.tape.get? = some b) (hwrite : w.output.writeByte b = (.ok (), left)) :
    ∃ n v', Reaches K.next? n v v' ∧
      K.Stands (K.frame.tail K.program (index + 1)) { w with output := left } v' := by
  obtain ⟨m, input, output, failure, callbacks⟩ := v
  obtain ⟨c, rip, rfl, hat, rfl, rfl⟩ := h
  obtain ⟨s, htail⟩ := K.compiled.tail_output hi
  rw [htail] at hat
  obtain ⟨n₁, c₁, rip₁, hreach₁, h₁, hrax⟩ :=
    hat.skip.writes hb ⟨c.at rip, w.input, w.output, failure, callbacks⟩
  rw [hwrite] at hreach₁ hrax
  obtain ⟨target, hio, -⟩ := (exitsWith K.compiled K.environment).2.2
  obtain ⟨n₂, flags, hlead⟩ := Invocation.leads_written hrax hio (K.frame.tail K.program (index + 1))
  obtain ⟨rip₂, hreach₂, h₂⟩ := h₁.reaches ⟨c₁.at rip₁, w.input, left, failure, callbacks + 1⟩ hlead
    (h₁.holds.setFlags flags) (.setFlags c₁ flags) rfl
  exact ⟨_, _, hreach₁.trans hreach₂, _, rip₂, rfl, h₂, rfl, rfl⟩

theorem stopped_writeFailed {index : Nat} {w : World} {v : Invocation} {b : UInt8} {f : Failure}
    {left : Output} (hi : K.program[index]? = some .output)
    (h : K.Stands (K.frame.tail K.program index) w v)
    (hb : w.tape.get? = some b) (hwrite : w.output.writeByte b = (.error f, left)) :
    ∃ n v', Reaches K.next? n v v' ∧
      K.Stopped (.faulted (.channel f)) { w with output := left } v' := by
  obtain ⟨m, input, output, failure, callbacks⟩ := v
  obtain ⟨c, rip, rfl, hat, rfl, rfl⟩ := h
  obtain ⟨s, htail⟩ := K.compiled.tail_output hi
  rw [htail] at hat
  obtain ⟨n₁, c₁, rip₁, hreach₁, h₁, hrax⟩ :=
    hat.skip.writes hb ⟨c.at rip, w.input, w.output, failure, callbacks⟩
  rw [hwrite] at hreach₁ hrax
  obtain ⟨n₂, m, hreach₂, hleft⟩ := h₁.exits ⟨c₁.at rip₁, w.input, left, some f, callbacks + 1⟩
    (exitsWith K.compiled K.environment).2.2 fun hio => Invocation.leads_written hrax hio _
  exact ⟨_, _, hreach₁.trans hreach₂, 2, 0, hleft, rfl, rfl, rfl⟩

/-- The stub of a refused move notes its index and leaves. -/
theorem stopped_refused {s : Site} {w : World} {v : Invocation} (hindex : s.index < UInt64.size)
    (h : K.Stands ((K.frame.record s).1 ++ .jump K.frame.bounds :: xs) w v) :
    ∃ n v', Reaches K.next? n v v' ∧
      K.Stopped (.faulted (.outOfTape s.index w.tape.pointer)) w v' := by
  obtain ⟨m, input, output, failure, callbacks⟩ := v
  obtain ⟨c, rip, rfl, hat, rfl, rfl⟩ := h
  rw [record_eq K.environment] at hat
  obtain ⟨rip₁, hreach₁, h₁⟩ := hat.sets ⟨c.at rip, w.input, w.output, failure, callbacks⟩ rfl
    (Core.execute?_movImm64 c .rax (UInt64.ofNat s.index)) (by decide)
  obtain ⟨memory, hstore, htape, hinside⟩ := h₁.inside.store_fault K.sound .rax
  have hlead : Leads K.loaded 1 _ _ (.jump K.frame.bounds :: xs) _ := .plain rfl hstore .refl
  obtain ⟨rip₂, hreach₂, hat₂, hcode₂⟩ := hlead.reaches
    (K.next?_of_machine ⟨c.at rip, w.input, w.output, failure, callbacks⟩) h₁.items h₁.code
  have hholds := h₁.holds
  have h₂ : K.At (.jump K.frame.bounds :: xs) w.tape (UInt64.ofNat s.index) _ rip₂ :=
    ⟨hat₂, hcode₂, hinside, ⟨htape.trans hholds.tape, hholds.rbx, hholds.r12, hholds.r13,
      hholds.onCell, hholds.small⟩, h₁.capacity⟩
  obtain ⟨n, m, hreach₃, hleft⟩ := h₂.exits ⟨c.at rip, w.input, w.output, failure, callbacks⟩
    (exitsWith K.compiled K.environment).2.1 fun hbounds => ⟨_, c.flags, .jump hbounds .refl⟩
  refine ⟨_, _, hreach₁.trans (hreach₂.trans hreach₃), 1, UInt64.ofNat s.index, hleft, rfl, rfl, ?_⟩
  rw [UInt64.toNat_ofNat_of_lt' hindex]
  rfl

theorem stopped_finished {w : World} {v : Invocation}
    (h : K.Stands (K.frame.tail K.program K.program.length) w v) :
    ∃ n v', Reaches K.next? n v v' ∧ K.Stopped .finished w v' := by
  obtain ⟨m, input, output, failure, callbacks⟩ := v
  obtain ⟨c, rip, rfl, hat, rfl, rfl⟩ := h
  rw [Frame.tail_length, Frame.ending] at hat
  obtain ⟨n, m, hreach, hleft⟩ := hat.skip.exits ⟨c.at rip, w.input, w.output, failure, callbacks⟩
    (exitsWith K.compiled K.environment).1 fun hok => ⟨_, c.flags, .jump hok .refl⟩
  exact ⟨_, _, hreach, 0, 0, hleft, rfl, rfl, rfl⟩

theorem realization (K : Call) (hsize : K.program.length ≤ UInt64.size) :
    Realization K.frame K.program K.loaded K.place.tape K.next? K.Stands K.Stopped where
  compiled := K.compiled
  onCell := by
    rintro xs w v ⟨c, rip, -, hat, -⟩
    exact hat.holds.onCell
  stop := by
    rintro e w v ⟨status, fault, hleft, -⟩
    exact hleft.next?_eq_none
  lead := stands_lead
  read := stands_read
  readFailed := stopped_readFailed
  write := stands_write
  writeFailed := stopped_writeFailed
  refused := fun hindex => stopped_refused (Nat.lt_of_lt_of_le hindex hsize)
  finished := stopped_finished

/-! The start of a call. -/

section

variable {p : Program} {policy : EndOfInput} {code : MachineCode} {host : Host} {tape : Tape}

/-- The code of a program, in memory to be called. -/
def loadedCode (targets : ∀ i ∈ p.instructions.toList, TargetsWithin p.size i)
    (hgenerate : generate p HostCalls.environment policy = .ok code)
    (small : code.bytes.length ≤ UInt64.size) (base : UInt64) : Loaded where
  items := (Frame.of p HostCalls.environment policy).layout p.instructions.toList
  labels := (Frame.of p HostCalls.environment policy).labels p.instructions.toList
  address := 0
  header := []
  text := code.bytes
  code := .place base code.bytes.toArray
  assembled := (codeBytes_of_generate HostCalls.tidy targets hgenerate).1
  placed := rfl
  fits := small
  encodable := Frame.breach?_layout HostCalls.tidy targets

def ofProgram (targets : ∀ i ∈ p.instructions.toList, TargetsWithin p.size i)
    (hgenerate : generate p HostCalls.environment policy = .ok code)
    (conforms : host.Conforms code tape) : Call where
  host := host
  loaded := loadedCode targets hgenerate conforms.sound.code_fits host.place.code
  frame := .of p HostCalls.environment policy
  program := p.instructions.toList
  capacity := tape.capacity
  saved := (host.enter code tape).regs.get
  start := UInt64.ofNat tape.pointer
  compiled := ⟨rfl, rfl, HostCalls.tidy, targets, rfl, rfl⟩
  environment := rfl
  sound := conforms.sound
  base_eq := rfl
  answers := conforms.answers

/-- Nine instructions take over the tape, whatever it is. -/
theorem ofProgram_prologue (targets : ∀ i ∈ p.instructions.toList, TargetsWithin p.size i)
    (hgenerate : generate p HostCalls.environment policy = .ok code)
    (conforms : host.Conforms code tape) (input : Input) (output : Output) :
    ∃ c rip, Reaches (Invocation.next? host) 9
        { machine := host.enter code tape, input, output } { machine := c.at rip, input, output } ∧
      (ofProgram targets hgenerate conforms).loaded.At
        ((Frame.of p HostCalls.environment policy).tail p.instructions.toList 0) rip ∧
      c.memory.code = (ofProgram targets hgenerate conforms).loaded.code ∧
      Inside host.place tape.capacity (host.enter code tape).regs.get (UInt64.ofNat tape.pointer) 0 c ∧
      c.memory.tape = ⟨host.place.tape, tape.cells⟩ ∧ c.regs.rbx = host.place.tape ∧
      c.regs.r12 = UInt64.ofNat tape.pointer ∧ c.regs.r13 = UInt64.ofNat tape.capacity := by
  let K := ofProgram targets hgenerate conforms
  have enters := conforms.enters
  obtain ⟨c, hlead, hinside, htape, hrbx, hr12, hr13, -⟩ := enters.leads_prologue (L := K.loaded)
    conforms.sound ((Frame.of p HostCalls.environment policy).tail p.instructions.toList 0)
  have hat : K.loaded.At K.loaded.items (host.enter code tape).rip := by
    refine ⟨[], rfl, ?_⟩
    show _ = host.place.code + UInt64.ofNat 0 + UInt64.ofNat 0
    rw [enters.rip, (codeBytes_of_generate HostCalls.tidy targets hgenerate).2.1, UInt64.add_assoc]
    rfl
  have hcells : c.memory.tape = ⟨host.place.tape, tape.cells⟩ := by
    rw [htape, ← enters.tape.1, ← conforms.cells]
  obtain ⟨rip, hreach, hitems, hcode⟩ := hlead.reaches
    (K.next?_of_machine { machine := host.enter code tape, input, output }) hat enters.code
  exact ⟨c, rip, hreach, hitems, hcode, hinside, hcells, hrbx, hr12, hr13⟩

theorem ofProgram_enters (targets : ∀ i ∈ p.instructions.toList, TargetsWithin p.size i)
    (hgenerate : generate p HostCalls.environment policy = .ok code)
    (conforms : host.Conforms code tape) (onCell : tape.OnCell) (hcapacity : tape.capacity < 2 ^ 63)
    (input : Input) (output : Output) :
    ∃ n v, Reaches (Invocation.next? host) n { machine := host.enter code tape, input, output } v ∧
      (ofProgram targets hgenerate conforms).Stands
        ((Frame.of p HostCalls.environment policy).tail p.instructions.toList 0)
        ⟨tape, input, output⟩ v := by
  obtain ⟨c, rip, hreach, hitems, hcode, hinside, htape, hrbx, hr12, hr13⟩ :=
    ofProgram_prologue targets hgenerate conforms input output
  have hholds : Holds host.place.tape tape c := by
    refine ⟨htape, hrbx, hr12, hr13, onCell, ?_⟩
    have hsize : UInt64.size = 2 ^ 64 := rfl
    omega
  exact ⟨9, _, hreach, c, rip, rfl, ⟨hitems, hcode, hinside, hholds, rfl⟩, rfl, rfl⟩

end

end Call

theorem CompiledProgram.compile_eq {p : Program} {policy : EndOfInput} {code : MachineCode}
    (h : generate p HostCalls.environment policy = .ok code) : compile p policy = .ok ⟨code, policy⟩ := by
  rw [compile, h]
  rfl

/-- What the caller makes of the step that ended a call. -/
def CallEnding.ofStep (before : Nat) : InvocationStep → CallEnding
  | .returned status s =>
    let pointer := CompiledProgram.contextWord s pointerField
    let cells := s.machine.memory.tape.bytes
    .ended (CompiledProgram.ending status (CompiledProgram.contextWord s faultField) pointer s.failure)
      ⟨cells, if pointer < cells.size then pointer else before⟩ s.input s.output
  | _ => .crashed

theorem CompiledProgram.invoke_eq_some_iff {c : CompiledProgram} {host : Host} {tape : Tape}
    {input : Input} {output : Output} {r : CallEnding} :
    (∃ fuel, c.invoke host fuel tape input output = some r) ↔
      ∃ n v, Reaches (Invocation.next? host) n { machine := host.enter c.code tape, input, output } v ∧
        Invocation.next? host v = none ∧
        CallEnding.ofStep tape.pointer (Invocation.step host v) = r := by
  have hinvoke : ∀ fuel, c.invoke host fuel tape input output =
      (Invocation.run host fuel { machine := host.enter c.code tape, input, output }).map
        (CallEnding.ofStep tape.pointer) := by
    intro fuel
    simp only [invoke]
    rcases Invocation.run host fuel { machine := host.enter c.code tape, input, output }
      with _ | ⟨_ | _ | _⟩ <;> rfl
  constructor
  · rintro ⟨fuel, h⟩
    rw [hinvoke] at h
    obtain ⟨last, hrun, rfl⟩ := Option.map_eq_some_iff.mp h
    obtain ⟨n, v, hreach, hstop, rfl⟩ := Invocation.run_eq_some_iff.mp ⟨fuel, hrun⟩
    exact ⟨n, v, hreach, hstop, rfl⟩
  · rintro ⟨n, v, hreach, hstop, rfl⟩
    obtain ⟨fuel, hrun⟩ := Invocation.run_eq_some_iff.mpr ⟨n, v, hreach, hstop, rfl⟩
    exact ⟨fuel, by rw [hinvoke, hrun, Option.map_some]⟩

private theorem Call.Stopped.ofStep_eq {K : Call} {e : Ending} {w : World} {v : Invocation}
    (h : K.Stopped e w v) (before : Nat) :
    CallEnding.ofStep before (Invocation.step K.host v) = .ended e w.tape w.input w.output := by
  obtain ⟨status, fault, hleft, hinput, houtput, rfl⟩ := h
  have hpointer : w.tape.pointer < w.tape.cells.size := hleft.onCell
  simp only [hleft.step, CallEnding.ofStep, hleft.pointer, hleft.index, hleft.cells, hinput, houtput,
    if_pos hpointer]

/-- A call of code that was generated ends exactly when the interpreter does, and as it does. -/
theorem CompiledProgram.invoke_iff_of_generate {p : Program} {policy : EndOfInput}
    {code : MachineCode} (targets : ∀ i ∈ p.instructions.toList, TargetsWithin p.size i)
    (hsize : p.size ≤ wordLimit) (hgenerate : generate p HostCalls.environment policy = .ok code)
    {host : Host} {tape : Tape} (conforms : host.Conforms code tape) (onCell : tape.OnCell)
    (hcapacity : tape.capacity < 2 ^ 63) (input : Input) (output : Output) (r : CallEnding) :
    (∃ fuel, invoke ⟨code, policy⟩ host fuel tape input output = some r) ↔
      ∃ e s, (∃ fuel, Interpreter.run fuel p policy tape input output = some (e, s)) ∧
        r = .ended e s.tape s.input s.output := by
  let K := Call.ofProgram targets hgenerate conforms
  have R := K.realization hsize
  obtain ⟨k, v₀, hstart, hv₀⟩ :=
    Call.ofProgram_enters targets hgenerate conforms onCell hcapacity input output
  have hpolicy : K.frame.policy = policy := rfl
  have hfollows : Realization.Follows K.frame p K.Stands ⟨tape, 0, input, output⟩ v₀ :=
    ⟨Nat.zero_le _, hv₀⟩
  rw [invoke_eq_some_iff]
  constructor
  · rintro ⟨n, v, hreach, hstop, rfl⟩
    obtain ⟨e, s, hrun, hv⟩ := R.backward hpolicy hstart hfollows hreach hstop
    exact ⟨e, s, hrun, hv.ofStep_eq tape.pointer⟩
  · rintro ⟨e, s, ⟨fuel, hrun⟩, rfl⟩
    obtain ⟨n, v, hreach, hv⟩ := R.forward hpolicy hstart hfollows hrun
    exact ⟨n, v, hreach, R.stop hv, hv.ofStep_eq tape.pointer⟩

/-- Compiled code below 2 GiB does what the interpreter does. Whatever registers, flags and the stack
hold when a host calls it, and whatever callbacks do that the platform allows, a call ends exactly when a
run does, never by a crash: with the same ending, the same cells and pointer, and the channels in the
same state. -/
theorem invoke_iff_run {p : Program} {policy : EndOfInput}
    (targets : ∀ i ∈ p.instructions.toList, TargetsWithin p.size i) (hsize : p.size ≤ wordLimit)
    (small : codeSize p HostCalls.environment policy ≤ 2 ^ 31) :
    ∃ c, CompiledProgram.compile p policy = .ok c ∧
      ∀ (host : Host) (tape : Tape) (input : Input) (output : Output),
        tape.pointer < tape.capacity → tape.capacity < 2 ^ 63 → host.Conforms c.code tape →
        ∀ r, (∃ fuel, c.invoke host fuel tape input output = some r) ↔
          ∃ e s, (∃ fuel, Interpreter.run fuel p policy tape input output = some (e, s)) ∧
            r = .ended e s.tape s.input s.output := by
  obtain ⟨code, hgenerate⟩ := generate_ok HostCalls.tidy targets small
  refine ⟨⟨code, policy⟩, CompiledProgram.compile_eq hgenerate, ?_⟩
  intro host tape input output onCell hcapacity conforms r
  exact CompiledProgram.invoke_iff_of_generate targets hsize hgenerate conforms onCell hcapacity input
    output r

/-- A region with its first bytes overwritten. -/
def scribbled (count : Nat) (g : Region) : Region :=
  ⟨g.base, (List.replicate (min count g.bytes.size) 0xAB ++ g.bytes.toList.drop count).toArray⟩

private theorem size_scribbled (count : Nat) (g : Region) :
    (scribbled count g).bytes.size = g.bytes.size := by
  simp only [scribbled, List.size_toArray, List.length_append, List.length_replicate,
    List.length_drop, Array.length_toList]
  omega

private theorem getElem?_scribbled {count i : Nat} (h : count ≤ i) (g : Region) :
    (scribbled count g).bytes[i]? = g.bytes[i]? := by
  by_cases hi : i < g.bytes.size
  · have hmin : min count g.bytes.size = count := by omega
    simp [scribbled, hmin, List.getElem?_append_right, h]
  · have hsize := size_scribbled count g
    rw [Array.getElem?_eq_none (by omega), Array.getElem?_eq_none (by omega)]

private theorem scribbled_append {count : Nat} {low frame : Bytes} (h : low.length = count)
    (base : UInt64) :
    scribbled count ⟨base, (low ++ frame).toArray⟩ =
      ⟨base, (List.replicate count 0xAB ++ frame).toArray⟩ := by
  subst h
  simp [scribbled]

/-- A host that leaves something in every register, flag and byte of the stack that it may. -/
def untidyHost : Host where
  place := {}
  enter code tape :=
    let m := Placement.enter {} code tape
    { m with
      regs := { m.regs with
        rax := 1, rcx := 2, rbx := 3, rbp := 4, r8 := 5, r9 := 6, r10 := 7, r11 := 8, r12 := 9
        r13 := 10, r14 := 11, r15 := 12 }
      flags := ⟨true, true, true, true⟩
      memory := { m.memory with stack := scribbled 4088 m.memory.stack } }
  leave n reply m :=
    let m := Residue.leave ⟨7, 6, 5, 4, 3, 2, 1, UInt64.ofNat n, 9, ⟨true, true, true, true⟩⟩ reply m
    { m with memory := { m.memory with
        stack := scribbled (m.memory.stack.index m.regs.rsp) m.memory.stack } }

theorem untidyHost_conforms {code : MachineCode} {tape : Tape} (hcode : code.bytes.length ≤ 2 ^ 31)
    (hcapacity : tape.capacity ≤ 2 ^ 40) (hpointer : tape.pointer < UInt64.size) :
    untidyHost.Conforms code tape := by
  have sound := Placement.sound_default hcode hcapacity
  have enters := Placement.enters_enter sound hpointer
  refine ⟨sound, ⟨rfl, rfl, rfl, rfl, rfl, enters.tape, enters.context, ?_⟩, rfl, ?_⟩
  · refine ⟨List.replicate 4088 0xAB, ?_, ?_, ?_⟩
    · rw [List.length_replicate]
      rfl
    · exact scribbled_append List.length_replicate _
    · rw [List.length_replicate]
      rfl
  · intro n reply m _ hback
    have h := Residue.replies ⟨7, 6, 5, 4, 3, 2, 1, UInt64.ofNat n, 9, ⟨true, true, true, true⟩⟩ reply
      hback
    exact { h with
      stack := ⟨h.stack.1, (size_scribbled ..).trans h.stack.2⟩
      frame := fun i hi => (getElem?_scribbled (h.rsp ▸ hi) _).trans (h.frame i hi) }

/-- A byte is read and written, and then the pointer would leave the tape. -/
theorem invoke_iff_run_refused :
    ∃ c, CompiledProgram.compile ⟨#[.input, .loopOpen 5, .output, .move (-1), .loopClose 2]⟩ .zero =
        .ok c ∧
      untidyHost.Conforms c.code (Tape.new 1) ∧
      ∃ fuel, c.invoke untidyHost fuel (Tape.new 1) (Input.ofBytes [7]) {} =
        some (.ended (.faulted (.outOfTape 3 0)) ⟨#[7], 0⟩ { calls := 1 }
          { written := #[7], calls := 1 }) := by
  have small : codeSize ⟨#[.input, .loopOpen 5, .output, .move (-1), .loopClose 2]⟩
      HostCalls.environment .zero ≤ 2 ^ 31 := by
    decide +kernel
  have hrun : Interpreter.run 10 ⟨#[.input, .loopOpen 5, .output, .move (-1), .loopClose 2]⟩ .zero
      (Tape.new 1) (Input.ofBytes [7]) {} = some (.faulted (.outOfTape 3 0),
        ⟨⟨#[7], 0⟩, 3, { calls := 1 }, { written := #[7], calls := 1 }⟩) := by
    decide +kernel
  obtain ⟨c, hcompile, hinvoke⟩ := invoke_iff_run (by decide) (by decide) small
  obtain ⟨code, hgenerate, hc⟩ := Except.bind_eq_ok.mp hcompile
  obtain rfl := Except.ok.inj hc
  rw [← length_bytes_of_generate HostCalls.tidy (by decide) hgenerate] at small
  have conforms : untidyHost.Conforms code (Tape.new 1) :=
    untidyHost_conforms small (by decide) (by decide)
  exact ⟨_, hcompile, conforms, (hinvoke untidyHost (Tape.new 1) _ _ (by decide) (by decide) conforms
    _).mpr ⟨_, _, ⟨10, hrun⟩, rfl⟩⟩

end TapeLang.Native
