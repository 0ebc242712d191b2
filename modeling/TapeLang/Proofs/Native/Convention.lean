import TapeLang.Proofs.Assembly.Disassembly
import TapeLang.Proofs.Native.Refinement
import TapeLang.Proofs.Native.Targets

/-!
# The calling convention

The host calls the code, and the code calls the host back. `Placement.Moves` lets callbacks do whatever
the platform allows a function, overwrite the cells, and return any number. `Complies` is what the code
owes the host in every state that can be reached.
-/

namespace TapeLang

open X86 Assembly Transition Relation

namespace Assembly

/-- Only a return resolves to one. -/
theorem exists_instr_of_resolve {bound : Array (Option Nat)} {address : UInt64} {offset : Nat}
    {item : Item Label} {i? : Option Instr} (hitem : ∀ l, item ≠ .bind l)
    (h : item.resolve bound address offset = .ok i?) :
    ∃ i, i? = some i ∧ (i = .ret → item = .plain .ret) := by
  cases item with
  | bind l => exact absurd rfl (hitem l)
  | plain i => exact ⟨i, (Except.ok.inj h).symm, fun hret => hret ▸ rfl⟩
  | tapeAddress dst => exact ⟨_, (Except.ok.inj h).symm, nofun⟩
  | jump l =>
    obtain ⟨rel, -, rfl⟩ := Except.map_eq_ok.mp h
    exact ⟨_, rfl, nofun⟩
  | branch c l =>
    obtain ⟨rel, -, rfl⟩ := Except.map_eq_ok.mp h
    exact ⟨_, rfl, nofun⟩

/-- Code is at an item where a disassembly lists the item's instruction. -/
theorem Loaded.At.listed {L : Loaded} {item : Item Label} {rest : List (Item Label)} {rip : UInt64}
    (h : L.At (item :: rest) rip) (hitem : ∀ l, item ≠ .bind l) :
    ∃ start i, rip = L.origin + UInt64.ofNat start ∧ Listed L.text start i item.size ∧
      L.code.fetch? rip = some (i, item.size) ∧ (i = .ret → item = .plain .ret) := by
  obtain ⟨front, hitems, rfl⟩ := h
  obtain ⟨i?, hi, hfetch⟩ := fetch?_of_items hitems
  obtain ⟨i, rfl, hret⟩ := exists_instr_of_resolve hitem hi
  have hassembled := L.assembled
  have hbreach : ∀ x ∈ front ++ item :: rest, x.breach? = none := by
    rw [← hitems]
    exact L.encodable
  rw [hitems] at hassembled hi
  obtain ⟨j?, hj, hlisted⟩ := listed_of_codeBytes hbreach hassembled
  obtain rfl := Except.ok.inj (hi.symm.trans hj)
  have hbreach' := breach?_of_resolve (hbreach item (by simp)) hi i rfl
  exact ⟨sizes front, i, rfl, hlisted i rfl, hfetch i rfl hbreach', hret⟩

/-- Nothing is executed without a step. -/
theorem Leads.eq_of_zero {L : Loaded} {n : Nat} {xs ys : List (Item Label)} {c d : Core}
    (h : Leads L n xs c ys d) (hn : n = 0) : c = d := by
  induction h with
  | refl => rfl
  | bind _ ih => exact ih hn
  | plain | tapeAddress | jump | taken | passed => cases hn

end Assembly

namespace Native

open HostCalls

/-- How far into the code a machine is. -/
def Placement.offset (place : Placement) (m : Machine) : Nat :=
  (m.rip - place.code).toNat

/-! What the code owes the host. -/

/-- The last instructions of the code. -/
def restoreItems : List (Item Label) :=
  saved.reverse.map (fun r => .plain (.pop r)) ++ [.plain .ret]

/-- The registers the code relies on. -/
structure Keeps (place : Placement) (capacity : Nat) (g : Registers) : Prop where
  rbx : g.rbx = place.tape
  r12 : g.r12 < g.r13
  r13 : g.r13 = UInt64.ofNat capacity
  r14 : g.r14 = place.context

theorem Keeps.congr {place : Placement} {capacity : Nat} {g g' : Registers} (h : Keeps place capacity g)
    (hget : ∀ r ∈ preserved, g'.get r = g.get r) : Keeps place capacity g' := by
  have hr12 : g'.r12 = g.r12 := hget .r12 (by decide)
  have hr13 : g'.r13 = g.r13 := hget .r13 (by decide)
  refine ⟨(hget .rbx (by decide)).trans h.rbx, ?_, hr13.trans h.r13,
    (hget .r14 (by decide)).trans h.r14⟩
  rw [hr12, hr13]
  exact h.r12

/-- The code has restored registers in `n` steps, from the last state in which it relied on them. The
context holds the pointer that `r12` had there, and the index of a refused move only if the status says
that a move was refused. -/
structure Restored (place : Placement) (code : MachineCode) (fault : UInt64) (entry : Machine) (n : Nat)
    (m : Machine) : Prop where
  regs : ∀ r ∈ preserved, m.regs.get r = entry.regs.get r
  status : m.regs.rax.toUInt32 ∈ [0, 1, 2]
  context : ∃ last index, ReflTransGen place.Moves entry last ∧
    place.offset last + sizes restoreItems = code.bytes.length ∧
    Reaches Machine.next? n last m ∧
    m.memory.context = ⟨place.context, (contextOf place last.regs.r12 index).toArray⟩ ∧
    (m.regs.rax.toUInt32 ≠ 1 → index = fault)

/-- What holds in a state `m` of a call that was entered in the state `entry`. -/
structure Complies (place : Placement) (code : MachineCode) (capacity : Nat) (fault : UInt64)
    (entry m : Machine) : Prop where
  /-- Unless the host has control, the machine is at an instruction that it can execute. -/
  boundary : place.IsHost m.rip ∨
    ∃ start i size m', Listed code.bytes start i size ∧ m.rip = place.code + UInt64.ofNat start ∧
      m.memory.code.fetch? m.rip = some (i, size) ∧ m.step = .next m'
  /-- Behind the prologue and in front of the last instructions, registers are kept. -/
  body : ∀ start, code.addresses[0]? = some start → start ≤ place.offset m →
    place.offset m + sizes restoreItems ≤ code.bytes.length → Keeps place capacity m.regs
  /-- A callback is called with the host's address and an aligned stack. -/
  callback : place.IsCallback m.rip →
    Keeps place capacity m.regs ∧ m.regs.rdi = place.host ∧
      (entry.regs.rsp.toNat % 16 = 8 → (m.regs.rsp + 8).toNat % 16 = 0)
  returns : ∀ size, m.memory.code.fetch? m.rip = some (.ret, size) →
    m.regs.rsp = entry.regs.rsp ∧ Restored place code fault entry 5 m
  returned : m.rip = place.caller →
    m.regs.rsp = entry.regs.rsp + 8 ∧ Restored place code fault entry 6 m

/-! Calls as they are run are among them. -/

namespace Invocation

variable {host : Host}

private theorem resume_cases (answers : host.Answers) (reply : Int32) {s : Invocation}
    (hentry : host.place.IsCallback s.machine.rip) :
    resume host reply s = .crashed ∨
      ∃ t, resume host reply s = .next t ∧ Returns s.machine t.machine := by
  obtain ⟨m, input, output, failure, callbacks⟩ := s
  cases hback : m.memory.loadWord? m.regs.rsp with
  | none => exact .inl (by simp only [resume, hback])
  | some back =>
    have hreplied := answers callbacks reply m hentry (by simp [hback])
    exact .inr ⟨_, resume_eq hback reply input output failure callbacks, hreplied.toReturns⟩

/-- A call has returned, goes on by a move, or crashes. -/
theorem step_cases (answers : host.Answers) (s : Invocation) :
    s.machine.rip = host.place.caller ∨
      (∃ t, step host s = .next t ∧ host.place.Moves s.machine t.machine) ∨
      step host s = .crashed := by
  have hresume : ∀ reply (t : Invocation), t.machine = s.machine →
      host.place.IsCallback s.machine.rip →
      (∃ u, resume host reply t = .next u ∧ host.place.Moves s.machine u.machine) ∨
        resume host reply t = .crashed := by
    rintro reply t hsame hentry
    rcases resume_cases answers reply (s := t) (hsame ▸ hentry) with hcrash | ⟨u, hnext, hreturns⟩
    · exact .inr hcrash
    · exact .inl ⟨u, hnext, .callback hentry (hsame ▸ hreturns)⟩
  by_cases hcaller : s.machine.rip = host.place.caller
  · exact .inl hcaller
  refine .inr ?_
  simp only [step, hcaller, if_false]
  split
  next hread =>
    split
    next =>
      simp only [readCallback]
      rcases s.input.readByte with ⟨_ | ⟨_ | b⟩, left⟩
      · exact hresume _ _ rfl (.inl hread)
      · exact hresume _ _ rfl (.inl hread)
      · exact hresume _ _ rfl (.inl hread)
    next => exact .inr rfl
  next =>
    split
    next hwrite =>
      split
      next =>
        simp only [writeCallback]
        rcases s.output.writeByte s.machine.regs.rsi.toUInt8 with ⟨_ | ⟨⟨⟩⟩, left⟩
        · exact hresume _ _ rfl (.inr hwrite)
        · exact hresume _ _ rfl (.inr hwrite)
      next => exact .inr rfl
    next =>
      cases hstep : s.machine.step with
      | next m => exact .inl ⟨_, rfl, .code hstep⟩
      | syscall m => exact .inr rfl
      | fault => exact .inr rfl

theorem moves_of_reaches (answers : host.Answers) {n : Nat} {s t : Invocation}
    (h : Reaches (next? host) n s t) : ReflTransGen host.place.Moves s.machine t.machine := by
  induction h with
  | refl s => exact .refl
  | @step n s u t first _ ih =>
    rw [next?_eq_some] at first
    rcases step_cases answers s with hcaller | ⟨v, hnext, hmoves⟩ | hcrash
    · rw [step_caller hcaller] at first
      cases first
    · obtain rfl := InvocationStep.next.inj (first.symm.trans hnext)
      exact .head hmoves ih
    · rw [hcrash] at first
      cases first

end Invocation

/-- A call of a program's code by a host. -/
structure Visit where
  place : Placement
  code : MachineCode
  loaded : Loaded
  frame : Frame
  program : List Instruction
  capacity : Nat
  pointer : Nat
  fault : UInt64
  entry : Machine
  compiled : Compiled frame program loaded
  environment : frame.environment = HostCalls.environment
  text : loaded.text = code.bytes
  header : loaded.header = []
  placed : loaded.code = .place place.code code.bytes.toArray
  first : code.addresses[0]? = some (sizes (expansion [] 0 HostCalls.environment.prologue).1)
  sound : place.Sound code.bytes.length capacity
  onCell : pointer < capacity
  start : code.entry = 0
  enters : place.Enters code capacity pointer fault entry

namespace Visit

variable {K : Visit} {item : Item Label} {xs ys rest : List (Item Label)} {c d : Core}
  {rip : UInt64} {m m' : Machine}

abbrev tail (K : Visit) (index : Nat) : List (Item Label) :=
  K.frame.tail K.program index

/-- The host is not in the code. -/
theorem outside_of_isHost {a : UInt64} (h : K.place.IsHost a) :
    K.code.bytes.length ≤ (a - K.place.code).toNat := by
  rcases h with rfl | rfl | rfl
  · exact K.sound.caller
  · exact K.sound.readEntry
  · exact K.sound.writeEntry

theorem fetch?_of_isHost {a : UInt64} (h : K.place.IsHost a) : K.loaded.code.fetch? a = none := by
  rw [K.placed]
  exact Code.fetch?_outside (outside_of_isHost h)

theorem origin_eq (K : Visit) : K.loaded.origin = K.place.code := by
  rw [Loaded.origin, K.placed, K.header]
  exact UInt64.add_zero _

theorem capacity_lt (K : Visit) : K.capacity < UInt64.size := by
  have hinside : (K.place.context - K.place.context).toNat < HostCalls.contextSize := by
    rw [UInt64.sub_self]
    decide
  have houtside : ¬ (K.place.context - K.place.tape).toNat < K.capacity := fun h =>
    K.sound.tape_context K.place.context h hinside
  exact Nat.lt_of_le_of_lt (Nat.le_of_not_lt houtside) (UInt64.toNat_lt_size _)

theorem length_eq (K : Visit) : K.code.bytes.length =
    sizes (expansion [] 0 HostCalls.environment.prologue).1 + sizes (K.tail 0) := by
  rw [← K.text, length_codeBytes K.loaded.assembled, K.compiled.items, Frame.layout, sizes_append,
    K.environment]

theorem offset_of_at (hat : K.loaded.At xs rip) :
    K.place.offset (c.at rip) + sizes xs = K.code.bytes.length := by
  obtain ⟨front, hitems, hrip⟩ := hat
  have hlength : K.code.bytes.length = sizes front + sizes xs := by
    rw [← K.text, length_codeBytes K.loaded.assembled, hitems, sizes_append]
  have hshort := K.sound.readEntry
  have hlt := UInt64.toNat_lt_size (K.place.readEntry - K.place.code)
  have hsub : rip - K.place.code = UInt64.ofNat (sizes front) := by
    rw [hrip, K.origin_eq]
    grind
  have hoffset : K.place.offset (c.at rip) = sizes front := by
    show (rip - K.place.code).toNat = _
    rw [hsub, UInt64.toNat_ofNat_of_lt' (by omega)]
  rw [hoffset, hlength]

/-- Items are between the prologue and the last instructions. -/
def Within (K : Visit) (xs : List (Item Label)) : Prop :=
  sizes xs ≤ sizes (K.tail 0) ∧ sizes restoreItems ≤ sizes xs

abbrev Good (K : Visit) (m : Machine) : Prop :=
  Complies K.place K.code K.capacity K.fault K.entry m

/-- A machine in the code complies if it can go on, keeps the registers while it relies on them, and
does not return too early. -/
theorem good_of_next (hat : K.loaded.At (item :: rest) rip) (hcode : c.memory.code = K.loaded.code)
    (hitem : ∀ l, item ≠ .bind l) (hnext : (c.at rip).next? = some m')
    (hbody : K.Within (item :: rest) → Keeps K.place K.capacity c.regs)
    (hret : item = .plain .ret → c.regs.rsp = K.entry.regs.rsp ∧
      Restored K.place K.code K.fault K.entry 5 (c.at rip)) : K.Good (c.at rip) := by
  obtain ⟨start, i, hrip, hlisted, hfetch, hi⟩ := hat.listed hitem
  rw [K.origin_eq] at hrip
  rw [K.text] at hlisted
  have hfetch' : (c.at rip).memory.code.fetch? (c.at rip).rip = some (i, item.size) := by
    rw [← hfetch, ← hcode]
    rfl
  have hoffset := offset_of_at (c := c) hat
  have hinside : ¬ K.place.IsHost rip := by
    intro hhost
    cases hfetch.symm.trans (fetch?_of_isHost hhost)
  refine ⟨.inr ⟨start, i, item.size, m', hlisted, hrip, hfetch', Machine.next?_eq_some.mp hnext⟩,
    ?_, ?_, ?_, ?_⟩
  · intro first hfirst hle hlast
    obtain rfl := Option.some.inj (K.first.symm.trans hfirst)
    have hlength := K.length_eq
    exact hbody ⟨by omega, by omega⟩
  · intro hcallback
    exact absurd (.inr hcallback) hinside
  · intro size hsize
    obtain ⟨rfl, -⟩ := Prod.mk.inj (Option.some.inj (hfetch'.symm.trans hsize))
    exact hret (hi rfl)
  · intro hcaller
    exact absurd (.inl hcaller) hinside

/-- The processor does not go on where the host has control. -/
theorem not_isHost_of_next (hcode : m.memory.code = K.loaded.code) (hnext : m.next? = some m') :
    ¬ K.place.IsHost m.rip := by
  have hfetch := Machine.fetch?_of_next? hnext
  rw [hcode] at hfetch
  exact fun hhost => hfetch (fetch?_of_isHost hhost)

theorem eq_of_moves (hcode : m.memory.code = K.loaded.code) (hnext : m.next? = some m') {t : Machine}
    (h : K.place.Moves m t) : t = m' := by
  cases h with
  | code step => exact Option.some.inj ((Machine.next?_eq_some.mpr step).symm.trans hnext)
  | callback entry _ => exact absurd (.inr entry) (not_isHost_of_next hcode hnext)

end Visit

end Native

end TapeLang
