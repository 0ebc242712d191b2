import TapeLang.Native.Invocation
import TapeLang.Proofs.Native.Fragments

/-!
# Code called by a host

What the hooks of the environment expand to, how the code calls back, and how it returns.
-/

namespace TapeLang.Native

open X86 Assembly Transition

namespace HostCalls

/-! The items of the hooks. -/

theorem expand_prologue (next : Nat) :
    Listing.expand [] next environment.prologue =
      .ok (saved.map (fun r => .plain (.push r)) ++
        [.plain (.mov tapeReg .rdi), .plain (.mov capacityReg .rsi), .plain (.mov contextReg .rdx),
          .plain (.load pointerReg (field pointerField))], next) := rfl

theorem expand_readByte (s : Site) (eof io next : Nat) :
    Listing.expand [("eof", eof), ("io_error", io)] next (environment.readByte s) =
      .ok ([.plain (.load .rdi (field hostField)), .plain (.callMem (field readField)),
        .plain (.test32 .rax .rax), .branch .sign io, .plain (.aluImm32 .cmp .rax endOfInput),
        .branch .equal eof], next) := rfl

theorem expand_writeByte (s : Site) (io next : Nat) :
    Listing.expand [("io_error", io)] next (environment.writeByte s) =
      .ok ([.plain (.load .rdi (field hostField)), .plain (.loadByte .rsi cell),
        .plain (.callMem (field writeField)), .plain (.test32 .rax .rax), .branch .notEqual io],
        next) := rfl

theorem expand_recordFault (s : Site) (next : Nat) :
    Listing.expand [] next (environment.recordFault s) =
      .ok ([.plain (.movImm64 .rax (UInt64.ofNat s.index)),
        .plain (.store (field faultField) .rax)], next) := rfl

/-- The end of the code, whatever the exit. -/
def leaveItems : List (Item Label) :=
  .plain (.store (field pointerField) pointerReg) ::
    (saved.reverse.map (fun r => .plain (.pop r)) ++ [.plain .ret])

theorem expand_epilogue (s : Site) (ok bounds io next : Nat) :
    Listing.expand [("ok", ok), ("bounds", bounds), ("io", io)] next (environment.epilogue s) =
      .ok (.bind ok :: .plain (.xor32 .rax .rax) :: .jump next :: .bind bounds ::
        .plain (.movImm32 .rax 1) :: .jump next :: .bind io :: .plain (.movImm32 .rax 2) ::
        .bind next :: leaveItems, next + 1) := rfl

theorem tidy : environment.Tidy where
  prologue next := ⟨_, _, expand_prologue next, .of_unbound rfl (by decide) next⟩
  readByte eof io s next :=
    ⟨_, _, expand_readByte s eof io next, .of_unbound rfl (by simp [usedLabels]) next⟩
  writeByte io s next :=
    ⟨_, _, expand_writeByte s io next, .of_unbound rfl (by simp [usedLabels]) next⟩
  recordFault s next :=
    ⟨_, _, expand_recordFault s next, .of_unbound rfl (by simp [usedLabels]) next⟩
  epilogue ok bounds io s next := by
    refine ⟨_, _, expand_epilogue s ok bounds io next, Nat.le_succ next, fun l => ?_, fun l hl => ?_⟩
    · show [ok, bounds, io, next].count l + [].count l = _
      grind
    · have hused : l = next := by simpa [usedLabels, leaveItems, saved] using hl
      exact .inr (by omega)

section

variable {f : Frame} (henvironment : f.environment = environment) (s : Site)

include henvironment

theorem reading_eq : (f.reading s).1 = [.plain (.load .rdi (field hostField)),
    .plain (.callMem (field readField)), .plain (.test32 .rax .rax), .branch .sign f.io,
    .plain (.aluImm32 .cmp .rax endOfInput), .branch .equal s.next] := by
  rw [Frame.reading, henvironment, expansion_of_expand (expand_readByte ..)]

theorem writing_eq : (f.writing s).1 = [.plain (.load .rdi (field hostField)),
    .plain (.loadByte .rsi cell), .plain (.callMem (field writeField)), .plain (.test32 .rax .rax),
    .branch .notEqual f.io] := by
  rw [Frame.writing, henvironment, expansion_of_expand (expand_writeByte ..)]

theorem record_eq : (f.record s).1 = [.plain (.movImm64 .rax (UInt64.ofNat s.index)),
    .plain (.store (field faultField) .rax)] := by
  rw [Frame.record, henvironment, expansion_of_expand (expand_recordFault ..)]

end

/-! The exits. -/

/-- From a label, the code goes on to leave with a status. -/
def ExitsWith (L : Loaded) (l : Label) (status : UInt32) : Prop :=
  ∃ target, L.Bound l target ∧
    ∀ c : Core, ∃ n flags, Leads L n target c leaveItems
      ⟨c.regs.set .rax status.toUInt64, flags, c.memory⟩

theorem items_exits {f : Frame} {is : List Instruction} {L : Loaded} (C : Compiled f is L)
    (henvironment : f.environment = environment) :
    ∃ front next, L.items = front ++ .bind f.ok :: .plain (.xor32 .rax .rax) :: .jump next ::
      .bind f.bounds :: .plain (.movImm32 .rax 1) :: .jump next :: .bind f.io ::
      .plain (.movImm32 .rax 2) :: .bind next :: leaveItems := by
  obtain ⟨front, s, hitems⟩ := C.items_epilogue
  rw [Frame.leaving, henvironment, Frame.exits, expansion_of_expand (expand_epilogue ..)] at hitems
  exact ⟨front, s.next, hitems⟩

theorem exitsWith {f : Frame} {is : List Instruction} {L : Loaded} (C : Compiled f is L)
    (henvironment : f.environment = environment) :
    ExitsWith L f.ok 0 ∧ ExitsWith L f.bounds 1 ∧ ExitsWith L f.io 2 := by
  obtain ⟨front, next, hitems⟩ := items_exits C henvironment
  obtain ⟨⟨_, hok, hokLeads⟩, ⟨_, hbounds, hboundsLeads⟩, _, hio, hioLeads⟩ :=
    C.leavesBy rfl rfl rfl hitems
  exact ⟨⟨_, hok, fun c => ⟨_, _, (hokLeads (Core.execute?_clear c .rax)).choose_spec⟩⟩,
    ⟨_, hbounds, fun c => ⟨_, _, (hboundsLeads (Core.execute?_movImm32 c .rax 1)).choose_spec⟩⟩,
    ⟨_, hio, fun c => ⟨_, _, (hioLeads (Core.execute?_movImm32 c .rax 2)).choose_spec⟩⟩⟩

/-! The context. -/

/-- The context with a pointer and the index of a refused move. -/
def contextOf (place : Placement) (pointer fault : UInt64) : Bytes :=
  Bytes.ofUInt64 place.host ++ Bytes.ofUInt64 place.readEntry ++ Bytes.ofUInt64 place.writeEntry ++
    Bytes.ofUInt64 pointer ++ Bytes.ofUInt64 fault

private theorem length_contextOf (place : Placement) (pointer fault : UInt64) :
    (contextOf place pointer fault).length = contextSize := by
  simp [contextOf, contextSize]

theorem contextBytes_eq (place : Placement) {pointer : Nat} (h : pointer < UInt64.size) :
    place.contextBytes pointer = contextOf place (UInt64.ofNat pointer) 0 := by
  have hpointer : Bytes.ofUInt64 (UInt64.ofNat pointer) = Bytes.ofNat 8 pointer := by
    rw [Bytes.ofUInt64, UInt64.toNat_ofNat_of_lt' h]
  rw [Placement.contextBytes, contextOf, hpointer]
  rfl

end HostCalls

/-- Where a call may be placed: regions that are written lie apart, the stack has room for the saved
registers and two return addresses, and the code does not reach the addresses of the host. -/
structure Placement.Sound (place : Placement) (codeSize capacity : Nat) : Prop where
  tape_context : Apart place.tape capacity place.context HostCalls.contextSize
  tape_stack : Apart place.tape capacity place.stack place.stackSize
  context_stack : Apart place.context HostCalls.contextSize place.stack place.stackSize
  room : 56 ≤ place.stackSize
  readEntry : codeSize ≤ (place.readEntry - place.code).toNat
  writeEntry : codeSize ≤ (place.writeEntry - place.code).toNat
  caller : codeSize ≤ (place.caller - place.code).toNat
  read_ne_caller : place.readEntry ≠ place.caller
  write_ne_caller : place.writeEntry ≠ place.caller
  write_ne_read : place.writeEntry ≠ place.readEntry

/-- The usual placement suits code up to 2 GiB and tapes up to 1 TiB. -/
theorem Placement.sound_default {codeSize capacity : Nat} (hcode : codeSize ≤ 2 ^ 31)
    (hcapacity : capacity ≤ 2 ^ 40) : Placement.Sound {} codeSize capacity where
  tape_context := .of_le (Nat.le_trans (Nat.add_le_add_left hcapacity _) (by decide)) (by decide)
  tape_stack := .of_le (Nat.le_trans (Nat.add_le_add_left hcapacity _) (by decide)) (by decide)
  context_stack := .of_le (by decide) (by decide)
  room := by decide
  readEntry := Nat.le_trans hcode (by decide)
  writeEntry := Nat.le_trans hcode (by decide)
  caller := Nat.le_trans hcode (by decide)
  read_ne_caller := by decide
  write_ne_caller := by decide
  write_ne_read := by decide

private theorem Placement.Sound.stack_fits {place : Placement} {codeSize capacity : Nat}
    (h : place.Sound codeSize capacity) : place.stackSize ≤ UInt64.size := by
  have hinside : (place.context - place.context).toNat < HostCalls.contextSize := by
    rw [UInt64.sub_self]
    decide
  have houtside := h.context_stack place.context hinside
  have hlt := (place.context - place.stack).toNat_lt
  have hsize : UInt64.size = 2 ^ 64 := rfl
  omega

theorem Placement.Sound.code_fits {place : Placement} {codeSize capacity : Nat}
    (h : place.Sound codeSize capacity) : codeSize ≤ UInt64.size :=
  Nat.le_trans h.readEntry (Nat.le_of_lt (UInt64.toNat_lt_size _))

namespace HostCalls

/-- The core of a call in progress, behind the prologue and in front of an exit. -/
structure Inside (place : Placement) (capacity : Nat) (value : Reg → UInt64) (pointer fault : UInt64)
    (c : Core) : Prop where
  r14 : c.regs.r14 = place.context
  tape : c.memory.tape.base = place.tape ∧ c.memory.tape.bytes.size = capacity
  context : c.memory.context = ⟨place.context, (contextOf place pointer fault).toArray⟩
  stack : ∃ low, low.length + 48 = place.stackSize ∧
    StackAt place.stack low (wordsOf saved.reverse value ++ Bytes.ofUInt64 place.caller) c

namespace Inside

variable {place : Placement} {codeSize capacity : Nat} {value : Reg → UInt64}
  {pointer fault : UInt64} {c c' : Core}

theorem separate (h : Inside place capacity value pointer fault c)
    (sound : place.Sound codeSize capacity) : c.memory.Separate := by
  obtain ⟨low, hlow, hstack⟩ := h.stack
  have hcontext : c.memory.context.bytes.size = contextSize := by
    rw [h.context, List.size_toArray, length_contextOf]
  have hstack' : c.memory.stack.bytes.size = place.stackSize := by
    rw [hstack.region, List.size_toArray, List.length_append, List.length_append, length_wordsOf,
      Bytes.length_ofUInt64, ← hlow]
    rfl
  apply Memory.separate_of_apart
  · rw [h.tape.1, h.tape.2, hcontext, h.context]
    exact sound.tape_context
  · rw [h.tape.1, h.tape.2, hstack', hstack.region]
    exact sound.tape_stack
  · rw [hcontext, hstack', hstack.region, h.context]
    exact sound.context_stack

/-- Fragments stay inside. -/
theorem kept (h : Inside place capacity value pointer fault c) (hkept : Kept c c') {t : Tape}
    (hholds : Holds place.tape t c') (hcapacity : t.capacity = capacity) :
    Inside place capacity value pointer fault c' where
  r14 := (hkept.regs .r14 (by decide) (by decide)).trans h.r14
  tape := by
    rw [hholds.tape]
    exact ⟨rfl, hcapacity⟩
  context := hkept.context.trans h.context
  stack := by
    obtain ⟨low, hlow, hstack⟩ := h.stack
    exact ⟨low, hlow, hkept.stack.trans hstack.region,
      (hkept.regs .rsp (by decide) (by decide)).trans hstack.top, hstack.fits⟩

theorem setReg (h : Inside place capacity value pointer fault c) {r : Reg} (hr : r ∉ [.r14, .rsp])
    (v : UInt64) : Inside place capacity value pointer fault (c.setReg r v) := by
  have hget : ∀ r' ∈ [Reg.r14, .rsp], (c.regs.set r v).get r' = c.regs.get r' := by
    intro r' hr'
    exact Registers.get_set_of_ne _ _ (by rintro rfl; exact hr hr')
  obtain ⟨low, hlow, hstack⟩ := h.stack
  exact ⟨(hget .r14 (by decide)).trans h.r14, h.tape, h.context, low, hlow, hstack.region,
    (hget .rsp (by decide)).trans hstack.top, hstack.fits⟩

/-! Fields of the context. -/

theorem area_context (h : Inside place capacity value pointer fault c) {bytes : Bytes}
    (hcut : contextOf place pointer fault = bytes) :
    c.memory.area .context = ⟨place.context, bytes.toArray⟩ ∧ bytes.length ≤ UInt64.size := by
  refine ⟨by rw [← hcut]; exact h.context, ?_⟩
  rw [← hcut, length_contextOf]
  decide

private theorem address_field (h : Inside place capacity value pointer fault c) {offset : Int32}
    {n : Nat} (hoffset : signExtend offset = UInt64.ofNat n) :
    c.regs.address (field offset) = place.context + UInt64.ofNat n := by
  have haddress : c.regs.address (field offset) = c.regs.r14 + 0 + signExtend offset := rfl
  rw [haddress, h.r14, hoffset, UInt64.add_zero]

theorem loadWord? (h : Inside place capacity value pointer fault c)
    (sound : place.Sound codeSize capacity) {front back : Bytes} {w : UInt64} {offset : Int32}
    (hcut : contextOf place pointer fault = front ++ Bytes.ofUInt64 w ++ back)
    (hoffset : signExtend offset = UInt64.ofNat front.length) :
    c.memory.loadWord? (c.regs.address (field offset)) = some w := by
  obtain ⟨harea, hfits⟩ := h.area_context hcut
  rw [h.address_field hoffset]
  exact Memory.loadWord?_area (h.separate sound) harea hfits

theorem storeWord? (h : Inside place capacity value pointer fault c)
    (sound : place.Sound codeSize capacity) {front old back : Bytes} (w : UInt64) {offset : Int32}
    (hcut : contextOf place pointer fault = front ++ old ++ back) (hlength : old.length = 8)
    (hoffset : signExtend offset = UInt64.ofNat front.length) :
    c.memory.storeWord? (c.regs.address (field offset)) w = some { c.memory with
      context := ⟨place.context, (front ++ Bytes.ofUInt64 w ++ back).toArray⟩ } := by
  obtain ⟨harea, hfits⟩ := h.area_context hcut
  rw [h.address_field hoffset]
  exact Memory.storeWord?_area (h.separate sound) harea hfits hlength

theorem loadWord?_host (h : Inside place capacity value pointer fault c)
    (sound : place.Sound codeSize capacity) :
    c.memory.loadWord? (c.regs.address (field hostField)) = some place.host := by
  have hcut : contextOf place pointer fault = [] ++ Bytes.ofUInt64 place.host ++
      (Bytes.ofUInt64 place.readEntry ++ Bytes.ofUInt64 place.writeEntry ++
        Bytes.ofUInt64 pointer ++ Bytes.ofUInt64 fault) := by
    simp [contextOf]
  exact h.loadWord? sound hcut rfl

theorem loadWord?_readEntry (h : Inside place capacity value pointer fault c)
    (sound : place.Sound codeSize capacity) :
    c.memory.loadWord? (c.regs.address (field readField)) = some place.readEntry := by
  have hcut : contextOf place pointer fault = Bytes.ofUInt64 place.host ++
      Bytes.ofUInt64 place.readEntry ++ (Bytes.ofUInt64 place.writeEntry ++
        Bytes.ofUInt64 pointer ++ Bytes.ofUInt64 fault) := by
    simp [contextOf]
  have hoffset : signExtend readField = UInt64.ofNat (Bytes.ofUInt64 place.host).length := by
    rw [Bytes.length_ofUInt64]
    rfl
  exact h.loadWord? sound hcut hoffset

theorem loadWord?_writeEntry (h : Inside place capacity value pointer fault c)
    (sound : place.Sound codeSize capacity) :
    c.memory.loadWord? (c.regs.address (field writeField)) = some place.writeEntry := by
  have hcut : contextOf place pointer fault =
      (Bytes.ofUInt64 place.host ++ Bytes.ofUInt64 place.readEntry) ++
        Bytes.ofUInt64 place.writeEntry ++ (Bytes.ofUInt64 pointer ++ Bytes.ofUInt64 fault) := by
    simp [contextOf]
  have hoffset : signExtend writeField =
      UInt64.ofNat (Bytes.ofUInt64 place.host ++ Bytes.ofUInt64 place.readEntry).length := by
    rw [List.length_append, Bytes.length_ofUInt64, Bytes.length_ofUInt64]
    rfl
  exact h.loadWord? sound hcut hoffset

/-- The callbacks, which stand in front of the pointer. -/
def callbackBytes (place : Placement) : Bytes :=
  Bytes.ofUInt64 place.host ++ Bytes.ofUInt64 place.readEntry ++ Bytes.ofUInt64 place.writeEntry

theorem signExtend_pointerField (place : Placement) :
    signExtend pointerField = UInt64.ofNat (callbackBytes place).length := by
  rw [callbackBytes, List.length_append, List.length_append, Bytes.length_ofUInt64,
    Bytes.length_ofUInt64, Bytes.length_ofUInt64]
  rfl

theorem signExtend_faultField (place : Placement) (pointer : UInt64) :
    signExtend faultField =
      UInt64.ofNat (callbackBytes place ++ Bytes.ofUInt64 pointer).length := by
  rw [List.length_append, UInt64.ofNat_add, ← signExtend_pointerField, Bytes.length_ofUInt64]
  rfl

private theorem loadWord?_pointer (h : Inside place capacity value pointer fault c)
    (sound : place.Sound codeSize capacity) :
    c.memory.loadWord? (c.regs.address (field pointerField)) = some pointer :=
  h.loadWord? sound rfl (signExtend_pointerField place)

/-- Only the context changed. -/
theorem withContext (h : Inside place capacity value pointer fault c) {memory : Memory}
    {pointer' fault' : UInt64} (hmemory : memory = { c.memory with
      context := ⟨place.context, (contextOf place pointer' fault').toArray⟩ }) :
    Inside place capacity value pointer' fault' (c.setMemory memory) := by
  subst hmemory
  obtain ⟨low, hlow, hstack⟩ := h.stack
  exact ⟨h.r14, h.tape, rfl, low, hlow, hstack.region, hstack.top, hstack.fits⟩

theorem store_pointer (h : Inside place capacity value pointer fault c)
    (sound : place.Sound codeSize capacity) (r : Reg) :
    ∃ memory, c.execute? (.store (field pointerField) r) = some (c.setMemory memory) ∧
      memory.tape = c.memory.tape ∧
      Inside place capacity value (c.regs.get r) fault (c.setMemory memory) := by
  have hcut : contextOf place pointer fault =
      callbackBytes place ++ Bytes.ofUInt64 pointer ++ Bytes.ofUInt64 fault := rfl
  have hstore := h.storeWord? sound (c.regs.get r) hcut (Bytes.length_ofUInt64 pointer)
    (signExtend_pointerField place)
  exact ⟨_, Core.execute?_store hstore, rfl, h.withContext rfl⟩

theorem store_fault (h : Inside place capacity value pointer fault c)
    (sound : place.Sound codeSize capacity) (r : Reg) :
    ∃ memory, c.execute? (.store (field faultField) r) = some (c.setMemory memory) ∧
      memory.tape = c.memory.tape ∧
      Inside place capacity value pointer (c.regs.get r) (c.setMemory memory) := by
  have hcut : contextOf place pointer fault =
      (callbackBytes place ++ Bytes.ofUInt64 pointer) ++ Bytes.ofUInt64 fault ++ [] := by
    rw [List.append_nil]
    rfl
  have hstore := h.storeWord? sound (c.regs.get r) hcut (Bytes.length_ofUInt64 fault)
    (signExtend_faultField place pointer)
  refine ⟨_, Core.execute?_store hstore, rfl, h.withContext ?_⟩
  rw [List.append_nil]
  rfl

end Inside

end HostCalls

open HostCalls

/-- The host calls the code with a tape, its capacity and a context. -/
structure Placement.Enters (place : Placement) (code : MachineCode) (capacity pointer : Nat)
    (fault : UInt64) (m : Machine) : Prop where
  rip : m.rip = place.code + UInt64.ofNat code.entry
  rdi : m.regs.rdi = place.tape
  rsi : m.regs.rsi = UInt64.ofNat capacity
  rdx : m.regs.rdx = place.context
  code : m.memory.code = .place place.code code.bytes.toArray
  tape : m.memory.tape.base = place.tape ∧ m.memory.tape.bytes.size = capacity
  context : m.memory.context =
    ⟨place.context, (contextOf place (UInt64.ofNat pointer) fault).toArray⟩
  stack : ∃ low : Bytes, low.length + 8 = place.stackSize ∧
    m.memory.stack = ⟨place.stack, (low ++ Bytes.ofUInt64 place.caller).toArray⟩ ∧
    m.regs.rsp = place.stack + UInt64.ofNat low.length

namespace Placement.Enters

variable {place : Placement} {code : MachineCode} {capacity pointer : Nat} {fault : UInt64}
  {m : Machine}

theorem separate (h : place.Enters code capacity pointer fault m)
    (sound : place.Sound code.bytes.length capacity) : m.memory.Separate := by
  obtain ⟨low, hlow, hstack, -⟩ := h.stack
  have hcontext : m.memory.context.bytes.size = contextSize := by
    rw [h.context, List.size_toArray, length_contextOf]
  have hsize : m.memory.stack.bytes.size = place.stackSize := by
    rw [hstack, List.size_toArray, List.length_append, Bytes.length_ofUInt64, hlow]
  apply Memory.separate_of_apart
  · rw [h.tape.1, h.tape.2, hcontext, h.context]
    exact sound.tape_context
  · rw [h.tape.1, h.tape.2, hsize, hstack]
    exact sound.tape_stack
  · rw [hcontext, hsize, hstack, h.context]
    exact sound.context_stack

/-- The stack holds the return address. -/
theorem stackAt (h : place.Enters code capacity pointer fault m)
    (sound : place.Sound code.bytes.length capacity) :
    ∃ low, low.length + 8 = place.stackSize ∧
      StackAt place.stack low (Bytes.ofUInt64 place.caller) m.core := by
  obtain ⟨low, hlow, hstack, hrsp⟩ := h.stack
  refine ⟨low, hlow, hstack, hrsp, ?_⟩
  rw [List.length_append, Bytes.length_ofUInt64, hlow]
  exact sound.stack_fits

/-- The prologue saves registers and takes the tape over. -/
theorem leads_prologue {L : Loaded} (h : place.Enters code capacity pointer fault m)
    (sound : place.Sound code.bytes.length capacity) (xs : List (Item Label)) :
    ∃ c, Leads L 9 ((expansion [] 0 environment.prologue).1 ++ xs) m.core xs c ∧
      Inside place capacity m.regs.get (UInt64.ofNat pointer) fault c ∧
      c.memory.tape = m.memory.tape ∧ c.regs.rbx = place.tape ∧
      c.regs.r12 = UInt64.ofNat pointer ∧ c.regs.r13 = UInt64.ofNat capacity ∧
      c.regs.rbp = m.regs.rbp := by
  obtain ⟨top, htop, hstackAt⟩ := h.stackAt sound
  have hroom := sound.room
  have hlength : 8 * saved.length = 40 := rfl
  have hvalue : ∀ r ∈ saved, m.core.regs.get r = m.regs.get r := fun _ _ => rfl
  rw [expansion_of_expand (expand_prologue 0), List.append_assoc]
  obtain ⟨low, c, hpushes, hlow, hstack, -, hsame⟩ := Leads.pushes (L := L)
    (.plain (.mov tapeReg .rdi) :: .plain (.mov capacityReg .rsi) :: .plain (.mov contextReg .rdx) ::
      .plain (.load pointerReg (field pointerField)) :: xs) (by decide) hvalue hstackAt
    (h.separate sound) (by omega)
  have hrdi : c.regs.rdi = place.tape := (hsame.regs .rdi (by decide)).trans h.rdi
  have hrsi : c.regs.rsi = UInt64.ofNat capacity := (hsame.regs .rsi (by decide)).trans h.rsi
  have hrdx : c.regs.rdx = place.context := (hsame.regs .rdx (by decide)).trans h.rdx
  have hinside : Inside place capacity m.regs.get (UInt64.ofNat pointer) fault
      (((c.setReg .rbx c.regs.rdi).setReg .r13 c.regs.rsi).setReg .r14 c.regs.rdx) := by
    refine ⟨hrdx, ?_, hsame.context.trans h.context, low, by omega, hstack.region, hstack.top,
      hstack.fits⟩
    show c.memory.tape.base = _ ∧ c.memory.tape.bytes.size = _
    rw [hsame.tape]
    exact h.tape
  exact ⟨_, hpushes.trans (.plain rfl (Core.execute?_mov ..) (.plain rfl (Core.execute?_mov ..)
      (.plain rfl (Core.execute?_mov ..)
        (.plain rfl (Core.execute?_load (hinside.loadWord?_pointer sound)) .refl)))),
    hinside.setReg (by decide) _, hsame.tape, hrdi, rfl, hrsi, hsame.regs .rbp (by decide)⟩

end Placement.Enters

end TapeLang.Native
