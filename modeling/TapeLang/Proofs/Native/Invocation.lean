import TapeLang.Proofs.Native.HostCalls

/-!
# Steps of a call

The processor takes the steps inside the code. A callback takes two: the code calls it, and it returns
by the platform's convention. What it may do is what every function may: leave anything in scratch
registers, in the flags and below the frame of the code.
-/

namespace TapeLang

open X86 Assembly Transition

theorem X86.Code.fetch?_outside {c : Code} {a : UInt64} (h : c.bytes.size ≤ (a - c.base).toNat) :
    c.fetch? a = none := by
  simp [fetch?, c.table_eq, decodeTable, Array.getD_eq_getD_getElem?, h]

theorem X86.Machine.fetch?_of_next? {m m' : Machine} (h : m.next? = some m') :
    m.memory.code.fetch? m.rip ≠ none := by
  intro hnone
  simp [next?, step, hnone] at h

namespace Native

/-! What the host may do. -/

/-- The registers a function hands back as it got them, besides the stack pointer. -/
def preserved : List Reg := [.rbx, .rbp, .r12, .r13, .r14, .r15]

/-- A function returns by the platform's convention. -/
structure Returns (m m' : Machine) : Prop where
  rip : m.memory.loadWord? m.regs.rsp = some m'.rip
  rsp : m'.regs.rsp = m.regs.rsp + 8
  regs : ∀ r ∈ preserved, m'.regs.get r = m.regs.get r
  code : m'.memory.code = m.memory.code
  context : m'.memory.context = m.memory.context
  tape : m'.memory.tape.base = m.memory.tape.base ∧
    m'.memory.tape.bytes.size = m.memory.tape.bytes.size
  stack : m'.memory.stack.base = m.memory.stack.base ∧
    m'.memory.stack.bytes.size = m.memory.stack.bytes.size
  /-- What lies behind the return address is the caller's. -/
  frame : ∀ i, m.memory.stack.index (m.regs.rsp + 8) ≤ i →
    m'.memory.stack.bytes[i]? = m.memory.stack.bytes[i]?

namespace Placement

def IsCallback (place : Placement) (a : UInt64) : Prop :=
  a = place.readEntry ∨ a = place.writeEntry

/-- The host has control at an address. -/
def IsHost (place : Placement) (a : UInt64) : Prop :=
  a = place.caller ∨ place.IsCallback a

/-- A step of a call: the processor takes it, or a callback returns. -/
inductive Moves (place : Placement) : Machine → Machine → Prop where
  | code {m m' : Machine} (step : m.step = .next m') : place.Moves m m'
  | callback {m m' : Machine} (entry : place.IsCallback m.rip) (returns : Returns m m') :
      place.Moves m m'

end Placement

/-- A callback replies with a number, and leaves the cells alone. -/
structure Replies (reply : Int32) (m m' : Machine) : Prop extends Returns m m' where
  rax : m'.regs.rax.toUInt32 = reply.toUInt32
  cells : m'.memory.tape = m.memory.tape

/-- Every callback with a return address on the stack replies. -/
def Host.Answers (host : Host) : Prop :=
  ∀ n reply m, host.place.IsCallback m.rip → m.memory.loadWord? m.regs.rsp ≠ none →
    Replies reply m (host.leave n reply m)

/-- A host keeps to the platform's convention when it calls the code on a tape and when it is called
back. Nothing else is known about it: not what registers, flags and the stack hold at the start, nor
what callbacks leave where they may. -/
structure Host.Conforms (host : Host) (code : MachineCode) (tape : Tape) : Prop where
  sound : host.place.Sound code.bytes.length tape.capacity
  enters : host.place.Enters code tape.capacity tape.pointer 0 (host.enter code tape)
  cells : (host.enter code tape).memory.tape.bytes = tape.cells
  answers : host.Answers

theorem Placement.enters_enter {place : Placement} {code : MachineCode} {tape : Tape}
    (sound : place.Sound code.bytes.length tape.capacity) (hpointer : tape.pointer < UInt64.size) :
    place.Enters code tape.capacity tape.pointer 0 (place.enter code tape) where
  rip := rfl
  rdi := rfl
  rsi := rfl
  rdx := rfl
  code := rfl
  tape := ⟨rfl, rfl⟩
  context := by
    rw [← HostCalls.contextBytes_eq place hpointer]
    rfl
  stack := by
    have hroom := sound.room
    refine ⟨List.replicate (place.stackSize - 8) 0, ?_, rfl, ?_⟩
    · rw [List.length_replicate]
      omega
    · rw [List.length_replicate]
      rfl

private theorem toUInt32_upper_or (upper low : UInt32) :
    ((upper.toUInt64 <<< 32) ||| low.toUInt64).toUInt32 = low := by
  have hupper : (upper.toUInt64 <<< 32).toNat = upper.toNat * 2 ^ 32 := by
    have hlt := upper.toNat_lt
    have h32 : (32 : UInt64).toNat % 64 = 32 := rfl
    rw [UInt64.toNat_shiftLeft, UInt32.toNat_toUInt64, Nat.shiftLeft_eq, h32,
      Nat.mod_eq_of_lt (by omega)]
  apply UInt32.toNat_inj.mp
  rw [UInt64.toNat_toUInt32, UInt64.toNat_or, hupper, UInt32.toNat_toUInt64, Nat.or_mod_two_pow,
    Nat.mul_mod_left, Nat.zero_or, Nat.mod_eq_of_lt low.toNat_lt]

theorem Residue.replies (r : Residue) (reply : Int32) {m : Machine}
    (h : m.memory.loadWord? m.regs.rsp ≠ none) : Replies reply m (r.leave reply m) := by
  obtain ⟨regs, flags, rip, memory⟩ := m
  obtain ⟨back, hback⟩ := Option.ne_none_iff_exists'.mp h
  exact {
    rip := by
      show memory.loadWord? regs.rsp = some ((memory.loadWord? regs.rsp).getD 0)
      rw [show memory.loadWord? regs.rsp = some back from hback]
      rfl
    rsp := rfl
    regs := fun r hr => by cases r <;> first | rfl | exact absurd hr (by decide)
    code := rfl
    context := rfl
    tape := ⟨rfl, rfl⟩
    stack := ⟨rfl, rfl⟩
    frame := fun _ _ => rfl
    rax := toUInt32_upper_or r.upperRax reply.toUInt32
    cells := rfl }

theorem Host.conforms_plain {place : Placement} {code : MachineCode} {tape : Tape}
    (sound : place.Sound code.bytes.length tape.capacity) (hpointer : tape.pointer < UInt64.size)
    (residue : Nat → Residue) : (Host.plain place residue).Conforms code tape :=
  ⟨sound, place.enters_enter sound hpointer, rfl, fun n reply _ _ => (residue n).replies reply⟩

/-- A function that returned left the caller's part of the stack. -/
theorem Returns.stackAt {m m' : Machine} {base back : UInt64} {low frame : Bytes}
    (h : Returns m m') (hstack : StackAt base low (Bytes.ofUInt64 back ++ frame) m.core)
    (hframe : 0 < frame.length) :
    ∃ low', low'.length = low.length + 8 ∧ StackAt base low' frame m'.core := by
  have hregion : m.memory.stack = ⟨base, (low ++ (Bytes.ofUInt64 back ++ frame)).toArray⟩ :=
    hstack.region
  have htop : m.regs.rsp = base + UInt64.ofNat low.length := hstack.top
  have hfits : low.length + 8 + frame.length ≤ UInt64.size := by
    have hfits := hstack.fits
    rw [List.length_append, List.length_append, Bytes.length_ofUInt64, ← Nat.add_assoc] at hfits
    exact hfits
  have hnext : m.regs.rsp + 8 = base + UInt64.ofNat (low.length + 8) := by
    rw [htop, UInt64.ofNat_add, ← UInt64.add_assoc]
    rfl
  have hindex : m.memory.stack.index (m.regs.rsp + 8) = low.length + 8 := by
    rw [hnext, hregion]
    exact Region.index_offset (by omega)
  have hsize : m'.memory.stack.bytes.toList.length = low.length + 8 + frame.length := by
    rw [Array.length_toList, h.stack.2, hregion]
    simp [Nat.add_assoc]
  have hdrop : m'.memory.stack.bytes.toList.drop (low.length + 8) = frame := by
    apply List.ext_getElem?
    intro i
    rw [List.getElem?_drop, Array.getElem?_toList, h.frame _ (by omega), hregion]
    simp [List.getElem?_append_right, Nat.add_assoc]
  have hcut := List.take_append_drop (low.length + 8) m'.memory.stack.bytes.toList
  rw [hdrop] at hcut
  have hlength : (m'.memory.stack.bytes.toList.take (low.length + 8)).length = low.length + 8 := by
    rw [List.length_take]
    omega
  refine ⟨m'.memory.stack.bytes.toList.take (low.length + 8), hlength, ?_, ?_, ?_⟩
  · show m'.memory.stack = _
    have hbase : m'.memory.stack.base = base := h.stack.1.trans (congrArg Region.base hregion)
    rw [hcut, ← hbase]
  · show m'.regs.rsp = _
    rw [h.rsp, hnext, hlength]
  · rw [hcut, hsize]
    exact hfits

namespace Invocation

variable {host : Host} {s t : Invocation}

/-- The state after a step, if the call goes on. -/
def next? (host : Host) (s : Invocation) : Option Invocation :=
  match step host s with
  | .next s => some s
  | _ => none

theorem next?_eq_some : next? host s = some t ↔ step host s = .next t := by
  unfold next?
  cases step host s <;> simp

/-- A call ends within some fuel exactly when steps lead to one that ends it. -/
theorem run_eq_some_iff {last : InvocationStep} :
    (∃ fuel, run host fuel s = some last) ↔
      ∃ n t, Reaches (next? host) n s t ∧ next? host t = none ∧ step host t = last := by
  have goes : ∀ fuel s t, next? host s = some t → run host (fuel + 1) s = run host fuel t := by
    intro fuel s t h
    simp only [run, next?_eq_some.mp h]
  have stops : ∀ fuel s, next? host s = none → run host (fuel + 1) s = some (step host s) := by
    intro fuel s h
    unfold next? at h
    unfold run
    cases hs : step host s <;> simp_all
  simpa only [Option.some.injEq] using
    exists_fuel_iff (s := s) (r := last) (fun _ => rfl) goes stops

/-- The addresses of the host are not in the code. -/
structure Beyond (place : Placement) (code : Code) : Prop where
  caller : code.fetch? place.caller = none
  readEntry : code.fetch? place.readEntry = none
  writeEntry : code.fetch? place.writeEntry = none

theorem next?_of_machine {m m' : Machine} (beyond : Beyond host.place m.memory.code)
    (h : m.next? = some m') (input : Input) (output : Output) (failure : Option Failure)
    (callbacks : Nat) :
    next? host ⟨m, input, output, failure, callbacks⟩ =
      some ⟨m', input, output, failure, callbacks⟩ := by
  have hfetch := Machine.fetch?_of_next? h
  have hne : ∀ {a}, m.memory.code.fetch? a = none → m.rip ≠ a := by
    intro a ha hrip
    exact hfetch (hrip ▸ ha)
  rw [next?_eq_some]
  simp only [step, hne beyond.caller, hne beyond.readEntry, hne beyond.writeEntry, if_false,
    Machine.next?_eq_some.mp h]

theorem step_caller (h : s.machine.rip = host.place.caller) :
    step host s = .returned s.machine.regs.rax.toUInt32 s :=
  if_pos h

/-! Replies of the callbacks. -/

def readReply : Except Failure (Option UInt8) → Int32
  | .ok (some b) => b.toUInt32.toInt32
  | .ok none => HostCalls.endOfInput
  | .error _ => -1

def writeReply : Except Failure Unit → Int32
  | .ok () => 0
  | .error _ => 1

/-- The failure a call remembers behind a callback. -/
def failureAfter {α : Type} (result : Except Failure α) (failure : Option Failure) : Option Failure :=
  match result with
  | .ok _ => failure
  | .error f => some f

variable {codeSize capacity : Nat}

theorem step_read (sound : host.place.Sound codeSize capacity) {m : Machine} {input : Input}
    (hrip : m.rip = host.place.readEntry) (hrdi : m.regs.rdi = host.place.host) (output : Output)
    (failure : Option Failure) (callbacks : Nat) :
    step host ⟨m, input, output, failure, callbacks⟩ =
      resume host (readReply input.readByte.1)
        ⟨m, input.readByte.2, output, failureAfter input.readByte.1 failure, callbacks⟩ := by
  simp only [step, hrip, sound.read_ne_caller, hrdi, if_true, if_false, readCallback]
  rcases input.readByte with ⟨_ | ⟨_ | b⟩, left⟩ <;> rfl

theorem step_write (sound : host.place.Sound codeSize capacity) {m : Machine} {output : Output}
    {b : UInt8} (hrip : m.rip = host.place.writeEntry) (hrdi : m.regs.rdi = host.place.host)
    (hrsi : m.regs.rsi = b.toUInt64) (input : Input) (failure : Option Failure) (callbacks : Nat) :
    step host ⟨m, input, output, failure, callbacks⟩ =
      resume host (writeReply (output.writeByte b).1)
        ⟨m, input, (output.writeByte b).2, failureAfter (output.writeByte b).1 failure, callbacks⟩ := by
  have hb : b.toUInt64.toUInt8 = b := by simp
  simp only [step, hrip, sound.write_ne_caller, sound.write_ne_read, hrdi, if_true, if_false,
    writeCallback, hrsi, hb]
  rcases output.writeByte b with ⟨_ | ⟨⟨⟩⟩, left⟩ <;> rfl

end Invocation

/-- A call through memory pushes the address behind it. -/
theorem next?_callMem {L : Loaded} {a : Mem} {rest : List (Item Label)} {rip entry base : UInt64}
    {low frame : Bytes} {c : Core} (hat : L.At (.plain (.callMem a) :: rest) rip)
    (hcode : c.memory.code = L.code) (hentry : c.memory.loadWord? (c.regs.address a) = some entry)
    (h : StackAt base low frame c) (sep : c.memory.Separate) (room : 8 ≤ low.length) :
    ∃ rip' low' c', L.At rest rip' ∧ (c.at rip).next? = some (c'.at entry) ∧
      low'.length + 8 = low.length ∧ StackAt base low' (Bytes.ofUInt64 rip' ++ frame) c' ∧
      c'.memory.Separate ∧ SameButStack c c' ∧ c'.memory.code = L.code := by
  have hrest := hat.next
  generalize hrip : rip + UInt64.ofNat (Item.plain (.callMem a) : Item Label).size = rip' at hrest
  obtain ⟨low', hlength, htop, hstore⟩ := h.storeWord? sep room rip'
  have hsame : (low' ++ (Bytes.ofUInt64 rip' ++ frame)).length = (low ++ frame).length := by
    simp only [List.length_append, Bytes.length_ofUInt64]
    omega
  refine ⟨rip', low', ⟨c.regs.set .rsp (c.regs.rsp - 8), c.flags, _⟩, hrest, ?_, hlength,
    ⟨rfl, htop, by rw [hsame]; exact h.fits⟩, h.separate sep hsame,
    ⟨rfl, rfl, fun r hr => Registers.get_set_of_ne _ _ hr⟩, hcode⟩
  rw [Core.next?_of_fetch (hat.fetch_plain hcode) (by simp), hrip]
  simp only [Machine.execute?, Core.at, hentry, Machine.push?, hstore, Option.map_some]

namespace Invocation

/-- A callback with a return address on the stack returns. -/
theorem resume_eq {back : UInt64} {m : Machine} (h : m.memory.loadWord? m.regs.rsp = some back)
    (reply : Int32) (input : Input) (output : Output) (failure : Option Failure) (callbacks : Nat) :
    resume host reply ⟨m, input, output, failure, callbacks⟩ =
      .next ⟨host.leave callbacks reply m, input, output, failure, callbacks + 1⟩ := by
  simp only [resume, h]

section

variable {L : Loaded} {place : Placement} {codeSize capacity : Nat} {value : Reg → UInt64}
  {pointer fault : UInt64} {t : Tape} {c c₁ : Core} {rip entry : UInt64} {rest : List (Item Label)}

open HostCalls

/-- A call in progress goes on when a callback has returned. -/
theorem inside_of_returns {m' : Machine} {back : UInt64} {low : Bytes}
    (h : Returns (c₁.at entry) m') (inside : Inside place capacity value pointer fault c)
    (hsame : SameButStack c c₁) (hlow : low.length + 56 = place.stackSize)
    (hstack : StackAt place.stack low (Bytes.ofUInt64 back ++
      (wordsOf saved.reverse value ++ Bytes.ofUInt64 place.caller)) c₁) :
    Inside place capacity value pointer fault m'.core := by
  have hframe : 0 < (wordsOf saved.reverse value ++ Bytes.ofUInt64 place.caller).length := by
    rw [List.length_append, Bytes.length_ofUInt64]
    omega
  obtain ⟨low', hlow', hstack'⟩ := h.stackAt hstack hframe
  have hr14 : m'.regs.r14 = c.regs.r14 :=
    (h.regs .r14 (by decide)).trans (hsame.regs .r14 (by decide))
  have htape : (c₁.at entry).memory.tape = c.memory.tape := hsame.tape
  refine ⟨hr14.trans inside.r14, ?_, (h.context.trans hsame.context).trans inside.context, low',
    by omega, hstack'⟩
  show m'.memory.tape.base = _ ∧ m'.memory.tape.bytes.size = _
  rw [h.tape.1, h.tape.2, htape]
  exact inside.tape

private theorem holds_of_replies {m' : Machine} {reply : Int32} (h : Replies reply (c₁.at entry) m')
    (holds : Holds place.tape t c) (hsame : SameButStack c c₁) : Holds place.tape t m'.core := by
  have hget : ∀ r ∈ preserved, m'.regs.get r = c.regs.get r := fun r hr =>
    (h.regs r hr).trans (hsame.regs r (by rintro rfl; exact absurd hr (by decide)))
  exact ⟨(h.cells.trans hsame.tape).trans holds.tape, (hget .rbx (by decide)).trans holds.rbx,
    (hget .r12 (by decide)).trans holds.r12, (hget .r13 (by decide)).trans holds.r13,
    holds.onCell, holds.small⟩

/-- A callback that replies leaves the code where it was, with the reply in `rax`. -/
theorem reaches_callback {offset reply : Int32} {input input' : Input} {output output' : Output}
    {failure failure' : Option Failure} {callbacks : Nat} (answers : host.Answers)
    (sound : host.place.Sound codeSize capacity) (beyond : Beyond host.place L.code)
    (hat : L.At (.plain (.callMem (field offset)) :: rest) rip) (hcode : c.memory.code = L.code)
    (inside : Inside host.place capacity value pointer fault c) (holds : Holds host.place.tape t c)
    (hentry : c.memory.loadWord? (c.regs.address (field offset)) = some entry)
    (hcallback : host.place.IsCallback entry)
    (hreply : ∀ m : Machine, m.rip = entry → m.regs.rdi = c.regs.rdi → m.regs.rsi = c.regs.rsi →
      step host ⟨m, input, output, failure, callbacks⟩ =
        resume host reply ⟨m, input', output', failure', callbacks⟩) :
    ∃ c' rip', Reaches (next? host) 2 ⟨c.at rip, input, output, failure, callbacks⟩
        ⟨c'.at rip', input', output', failure', callbacks + 1⟩ ∧
      L.At rest rip' ∧ c'.memory.code = L.code ∧ Inside host.place capacity value pointer fault c' ∧
      Holds host.place.tape t c' ∧ c'.regs.rax.toNat % 2 ^ 32 = reply.toUInt32.toNat := by
  obtain ⟨low, hlow, hstack⟩ := inside.stack
  have hroom := sound.room
  obtain ⟨rip', low', c₁, hrest, hcall, hlow', hstack₁, hsep₁, hsame, hcode₁⟩ :=
    next?_callMem hat hcode hentry hstack (inside.separate sound) (by omega)
  have hback : (c₁.at entry).memory.loadWord? (c₁.at entry).regs.rsp = some rip' :=
    hstack₁.loadWord? hsep₁
  have hreplied := answers callbacks reply (c₁.at entry) hcallback (by rw [hback]; simp)
  have hfirst := next?_of_machine (hcode ▸ beyond) hcall input output failure callbacks
  have hsecond : next? host ⟨c₁.at entry, input, output, failure, callbacks⟩ =
      some ⟨host.leave callbacks reply (c₁.at entry), input', output', failure', callbacks + 1⟩ := by
    rw [next?_eq_some, hreply _ rfl (hsame.regs .rdi (by decide)) (hsame.regs .rsi (by decide)),
      resume_eq hback]
  generalize host.leave callbacks reply (c₁.at entry) = m' at hreplied hsecond
  obtain rfl : m'.rip = rip' := Option.some.inj (hreplied.rip.symm.trans hback)
  refine ⟨m'.core, m'.rip, .step hfirst (.single hsecond), hrest, hreplied.code.trans hcode₁,
    inside_of_returns hreplied.toReturns inside hsame (by omega) hstack₁,
    holds_of_replies hreplied holds hsame, ?_⟩
  rw [← hreplied.rax, UInt64.toNat_toUInt32]
  rfl

/-! What the code makes of a reply. -/

theorem low_half_eq {v : UInt64} {n : UInt32} (h : v.toNat % 2 ^ 32 = n.toNat) :
    Width.low .half v = n.toUInt64 := by
  apply UInt64.toNat_inj.mp
  rw [toNat_low_half, h, UInt32.toNat_toUInt64]

private theorem readReply_byte (b : UInt8) :
    (readReply (.ok (some b))).toUInt32.toUInt64 = b.toUInt64 := by
  simp [readReply]

/-- Only failures are negative. -/
theorem sign_readReply (result : Except Failure (Option UInt8)) :
    (logicFlags .half (readReply result).toUInt32.toUInt64).sign = !result.isOk := by
  rcases result with _ | ⟨_ | b⟩
  · rfl
  · rfl
  · have hlt := b.toNat_lt
    have htop : (Width.top .half).toNat = 2 ^ 31 := rfl
    rw [readReply_byte]
    show decide (Width.top .half ≤ b.toUInt64) = false
    rw [decide_eq_false_iff_not, UInt64.le_iff_toNat_le, UInt8.toNat_toUInt64, htop]
    omega

/-- Only the end of the input compares equal to its number. -/
theorem zero_readReply (b? : Option UInt8) :
    (subFlags .half (readReply (.ok b?)).toUInt32.toUInt64
      (Width.low .half (signExtend endOfInput))).2.zero = b?.isNone := by
  cases b? with
  | none => rfl
  | some b =>
    have hlt := b.toNat_lt
    have hend : (Width.low .half (signExtend endOfInput)).toNat = 256 := rfl
    rw [readReply_byte]
    show (Width.low .half (b.toUInt64 - Width.low .half (signExtend endOfInput)) == 0) = false
    rw [beq_eq_false_iff_ne, Ne, ← UInt64.toNat_inj, toNat_low_half, UInt64.toNat_sub, hend,
      UInt8.toNat_toUInt64, UInt64.toNat_zero]
    omega

/-- Only a failure to write is not zero. -/
theorem zero_writeReply (result : Except Failure Unit) :
    (logicFlags .half (writeReply result).toUInt32.toUInt64).zero = result.isOk := by
  rcases result with _ | ⟨⟨⟩⟩ <;> rfl

theorem leads_readFailed {f : Failure} {io : Label} {target : List (Item Label)}
    (hrax : c.regs.rax.toNat % 2 ^ 32 = (readReply (.error f)).toUInt32.toNat)
    (hio : L.Bound io target) (rest : List (Item Label)) :
    ∃ n flags, Leads L n (.plain (.test32 .rax .rax) :: .branch .sign io :: rest) c target
      (c.setFlags flags) := by
  have hflags : (c.setFlags (logicFlags .half (Width.low .half c.regs.rax))).flags.sign = true := by
    rw [low_half_eq hrax]
    rfl
  exact ⟨_, _, .plain rfl (Core.execute?_test32 c .rax) (.taken hflags hio .refl)⟩

/-- The code goes on behind the read, or where the end of the input is dealt with. -/
theorem leads_readOk {b? : Option UInt8} {eof : Label} {target : List (Item Label)}
    (hrax : c.regs.rax.toNat % 2 ^ 32 = (readReply (.ok b?)).toUInt32.toNat)
    (heof : L.Bound eof target) (io : Label) (rest : List (Item Label)) :
    ∃ n flags, Leads L n (.plain (.test32 .rax .rax) :: .branch .sign io ::
        .plain (.aluImm32 .cmp .rax endOfInput) :: .branch .equal eof :: rest) c
      (if b?.isNone then target else rest) (c.setFlags flags) := by
  have hsign : (c.setFlags (logicFlags .half (Width.low .half c.regs.rax))).flags.sign = false := by
    rw [low_half_eq hrax]
    exact sign_readReply (.ok b?)
  have hzero : (subFlags .half (Width.low .half c.regs.rax)
      (Width.low .half (signExtend endOfInput))).2.zero = b?.isNone := by
    rw [low_half_eq hrax]
    exact zero_readReply b?
  have hlead : ∀ {ys d}, Leads L 1 (.branch .equal eof :: rest)
      ((c.setFlags (logicFlags .half (Width.low .half c.regs.rax))).setFlags (subFlags .half
        (Width.low .half c.regs.rax) (Width.low .half (signExtend endOfInput))).2) ys d →
      Leads L 4 (.plain (.test32 .rax .rax) :: .branch .sign io ::
        .plain (.aluImm32 .cmp .rax endOfInput) :: .branch .equal eof :: rest) c ys d := fun h =>
    .plain rfl (Core.execute?_test32 c .rax) (.passed hsign (.plain rfl (Core.execute?_cmpImm32 ..) h))
  cases b? with
  | none => exact ⟨_, _, hlead (.taken hzero heof .refl)⟩
  | some b => exact ⟨_, _, hlead (.passed hzero .refl)⟩

theorem leads_written {result : Except Failure Unit} {io : Label} {target : List (Item Label)}
    (hrax : c.regs.rax.toNat % 2 ^ 32 = (writeReply result).toUInt32.toNat)
    (hio : L.Bound io target) (rest : List (Item Label)) :
    ∃ n flags, Leads L n (.plain (.test32 .rax .rax) :: .branch .notEqual io :: rest) c
      (if result.isOk then rest else target) (c.setFlags flags) := by
  have hzero : (c.setFlags (logicFlags .half (Width.low .half c.regs.rax))).flags.zero =
      result.isOk := by
    rw [low_half_eq hrax]
    exact zero_writeReply result
  have hcond : Cond.holds .notEqual
      (c.setFlags (logicFlags .half (Width.low .half c.regs.rax))).flags = !result.isOk := by
    rw [Cond.holds, hzero]
  cases result with
  | ok _ => exact ⟨_, _, .plain rfl (Core.execute?_test32 c .rax) (.passed hcond .refl)⟩
  | error f => exact ⟨_, _, .plain rfl (Core.execute?_test32 c .rax) (.taken hcond hio .refl)⟩

end

end Invocation

end Native

end TapeLang
