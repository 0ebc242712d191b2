import TapeLang.Proofs.Native.Convention

/-!
# Compiled code keeps its contract

The code is walked through from one instruction of the program to the next, and from the exits to the
return. In between every path is straight, but for the branches of a fragment and for callbacks.
-/

namespace TapeLang.Native

open X86 Assembly Transition HostCalls Relation

namespace Visit

variable {K : Visit} {item : Item Label} {xs ys rest target : List (Item Label)} {c d : Core}
  {pointer fault : UInt64} {m' : Machine} {i : Instr} {l : Label}

/-- The code relies on its registers, with a pointer and an index in the context. -/
structure Standing (K : Visit) (pointer fault : UInt64) (c : Core) : Prop where
  inside : Inside K.place K.capacity K.entry.regs.get pointer fault c
  keeps : Keeps K.place K.capacity c.regs
  rbp : c.regs.rbp = K.entry.regs.rbp

/-- The context is still what the host handed over. -/
abbrev Ready (K : Visit) (c : Core) : Prop :=
  K.Standing (UInt64.ofNat K.pointer) K.fault c

/-- The status is set, and the index in the context agrees with it. -/
structure Leaving (K : Visit) (pointer fault : UInt64) (c : Core) : Prop
    extends K.Standing pointer fault c where
  status : c.regs.rax.toUInt32 ∈ [0, 1, 2]
  refused : c.regs.rax.toUInt32 ≠ 1 → fault = K.fault

namespace Standing

theorem within (h : K.Standing pointer fault c) (_ : K.Within xs) :
    Keeps K.place K.capacity c.regs :=
  h.keeps

theorem setFlags (h : K.Standing pointer fault c) (flags : Flags) :
    K.Standing pointer fault (c.setFlags flags) := by
  obtain ⟨low, hlow, hstack⟩ := h.inside.stack
  exact ⟨⟨h.inside.r14, h.inside.tape, h.inside.context, low, hlow, hstack.region, hstack.top,
    hstack.fits⟩, h.keeps, h.rbp⟩

theorem setReg (h : K.Standing pointer fault c) {r : Reg} (hr : r ∉ .rsp :: preserved) (v : UInt64) :
    K.Standing pointer fault (c.setReg r v) := by
  have hget : ∀ r' ∈ preserved, (c.regs.set r v).get r' = c.regs.get r' := by
    intro r' hr'
    exact Registers.get_set_of_ne _ _ (by rintro rfl; exact hr (.tail _ hr'))
  have hinside : [Reg.r14, .rsp] ⊆ .rsp :: preserved := by decide
  exact ⟨h.inside.setReg (fun hmem => hr (hinside hmem)) v, h.keeps.congr hget,
    (hget .rbp (by decide)).trans h.rbp⟩

/-- The pointer may go to any cell. -/
theorem setPointer (h : K.Standing pointer fault c) {v : UInt64} (hv : v < c.regs.r13) :
    K.Standing pointer fault (c.setReg .r12 v) :=
  ⟨h.inside.setReg (by decide) v, ⟨h.keeps.rbx, hv, h.keeps.r13, h.keeps.r14⟩, h.rbp⟩

/-! The current cell is on the tape. -/

theorem pointer_lt (h : K.Standing pointer fault c) : c.regs.r12.toNat < K.capacity := by
  have hlt := UInt64.lt_iff_toNat_lt.mp h.keeps.r12
  rwa [h.keeps.r13, UInt64.toNat_ofNat_of_lt' K.capacity_lt] at hlt

theorem address_cell (h : K.Standing pointer fault c) :
    c.regs.address cell = c.memory.tape.base + UInt64.ofNat c.regs.r12.toNat := by
  have haddress : c.regs.address cell = c.regs.rbx + c.regs.r12 + 0 := rfl
  rw [haddress, h.keeps.rbx, h.inside.tape.1, UInt64.ofNat_toNat, UInt64.add_zero]

theorem contains_cell (h : K.Standing pointer fault c) :
    c.memory.tape.contains (c.regs.address cell) = true := by
  have hsize := h.inside.tape.2
  rw [h.address_cell]
  exact Region.contains_offset (by rw [hsize]; exact h.pointer_lt)
    (by rw [hsize]; exact Nat.le_of_lt K.capacity_lt)

theorem load?_cell (h : K.Standing pointer fault c) :
    ∃ b, c.memory.load? (c.regs.address cell) = some b := by
  have hlt : c.regs.r12.toNat < c.memory.tape.bytes.size := by
    rw [h.inside.tape.2]
    exact h.pointer_lt
  rw [Memory.load?, if_pos h.contains_cell, h.address_cell, Region.load?_offset (UInt64.toNat_lt_size _)]
  exact ⟨_, Array.getElem?_eq_getElem hlt⟩

theorem store?_cell (h : K.Standing pointer fault c) (b : UInt8) :
    ∃ memory, c.memory.store? (c.regs.address cell) b = some memory ∧
      K.Standing pointer fault (c.setMemory memory) := by
  obtain ⟨low, hlow, hstack⟩ := h.inside.stack
  have hcontains := h.contains_cell
  refine ⟨{ c.memory with tape := c.memory.tape.store (c.regs.address cell) b }, ?_,
    ⟨h.inside.r14, ?_, h.inside.context, low, hlow, hstack.region, hstack.top, hstack.fits⟩,
    h.keeps, h.rbp⟩
  · rcases hm : c.memory with ⟨code, tape, context, stack⟩
    rw [hm] at hcontains
    simp only [Memory.store?, hcontains, if_true]
  · show (c.memory.tape.store _ b).base = _ ∧ (c.memory.tape.store _ b).bytes.size = _
    rw [Region.base_store, Region.size_store]
    exact h.inside.tape

end Standing

/-! Walking through the code. -/

/-- Where the walk is cut: at the instructions of the program, and where registers are restored. -/
inductive Cut (K : Visit) : Machine → Prop where
  | instruction {index : Nat} {c : Core} {rip : UInt64} (hindex : index ≤ K.frame.size)
      (hcode : c.memory.code = K.loaded.code) (hat : K.loaded.At (K.tail index) rip)
      (ready : K.Ready c) : K.Cut (c.at rip)
  | restore {fault : UInt64} {c : Core} {rip : UInt64} (hcode : c.memory.code = K.loaded.code)
      (hat : K.loaded.At restoreItems rip) (leaving : K.Leaving c.regs.r12 fault c) : K.Cut (c.at rip)

abbrev Until (K : Visit) (m : Machine) : Prop :=
  GoodUntil K.place.Moves K.Good K.Cut m

/-- From some items on, code complies up to the next cut, which may be right there. -/
def Safe (K : Visit) (xs : List (Item Label)) (c : Core) : Prop :=
  c.memory.code = K.loaded.code → ∀ rip, K.loaded.At xs rip → K.Until (c.at rip)

/-- At some items code complies, be it at a cut or not, and what follows does up to the next cut. -/
def Goes (K : Visit) (xs : List (Item Label)) (c : Core) : Prop :=
  c.memory.code = K.loaded.code → ∀ rip, K.loaded.At xs rip →
    K.Good (c.at rip) ∧ ∀ t, K.place.Moves (c.at rip) t → K.Until t

/-- A label is bound where cores with a property are safe. -/
def SafeAt (K : Visit) (l : Label) (P : Core → Prop) : Prop :=
  ∃ target, K.loaded.Bound l target ∧ ∀ c, P c → K.Safe target c

theorem Goes.safe (h : K.Goes xs c) : K.Safe xs c := by
  intro hcode rip hat
  obtain ⟨good, tail⟩ := h hcode rip hat
  exact .step good tail

theorem Goes.bind (h : K.Goes xs c) : K.Goes (.bind l :: xs) c :=
  fun hcode rip hat => h hcode rip hat.next_bind

theorem Safe.bind (h : K.Safe xs c) : K.Safe (.bind l :: xs) c :=
  fun hcode rip hat => h hcode rip hat.next_bind

private theorem goes_of_next (hitem : ∀ l, item ≠ .bind l) (hret : item ≠ .plain .ret)
    (hbody : K.Within (item :: rest) → Keeps K.place K.capacity c.regs)
    (h : c.memory.code = K.loaded.code → ∀ rip, K.loaded.At (item :: rest) rip →
      ∃ m', (c.at rip).next? = some m' ∧ K.Until m') : K.Goes (item :: rest) c := by
  intro hcode rip hat
  obtain ⟨m', hnext, huntil⟩ := h hcode rip hat
  refine ⟨good_of_next hat hcode hitem hnext hbody fun h => absurd h hret, fun t ht => ?_⟩
  rw [eq_of_moves hcode hnext ht]
  exact huntil

theorem goes_plain (hi : i.isStraight = true) (hc : c.execute? i = some d)
    (hbody : K.Within (.plain i :: rest) → Keeps K.place K.capacity c.regs) (h : K.Safe rest d) :
    K.Goes (.plain i :: rest) c := by
  have hret : Item.plain (α := Label) i ≠ .plain .ret := by
    rintro heq
    obtain rfl := Item.plain.inj heq
    cases hi
  refine goes_of_next nofun hret hbody fun hcode rip hat => ?_
  obtain ⟨rip', hat', hnext⟩ := hat.next?_straight hcode hi hc
  exact ⟨_, hnext, h ((Core.code_execute? hc).trans hcode) rip' hat'⟩

theorem goes_jump (hbound : K.loaded.Bound l target)
    (hbody : K.Within (.jump l :: rest) → Keeps K.place K.capacity c.regs) (h : K.Safe target c) :
    K.Goes (.jump l :: rest) c := by
  refine goes_of_next nofun nofun hbody fun hcode rip hat => ?_
  obtain ⟨rip', hat', hnext⟩ := hat.next?_jump hbound hcode
  exact ⟨_, hnext, h hcode rip' hat'⟩

theorem goes_branch {cond : Cond} (hbound : K.loaded.Bound l target)
    (hbody : K.Within (.branch cond l :: rest) → Keeps K.place K.capacity c.regs)
    (taken : K.Safe target c) (passed : cond.holds c.flags = false → K.Safe rest c) :
    K.Goes (.branch cond l :: rest) c := by
  refine goes_of_next nofun nofun hbody fun hcode rip hat => ?_
  cases hcond : cond.holds c.flags with
  | true =>
    obtain ⟨rip', hat', hnext⟩ := hat.next?_taken hbound hcode hcond
    exact ⟨_, hnext, taken hcode rip' hat'⟩
  | false =>
    obtain ⟨rip', hat', hnext⟩ := hat.next?_passed hcode hcond
    exact ⟨_, hnext, passed hcond hcode rip' hat'⟩

/-! Straight code outside the body. -/

/-- Instructions in front of some items are before the body, or behind it. -/
def Outside (K : Visit) (ps : List Instr) (ys : List (Item Label)) : Prop :=
  (∀ i ∈ ps, 0 < (Item.plain (α := Label) i).size) ∧ sizes (K.tail 0) ≤ sizes ys ∨
    sizes (ps.map .plain ++ ys) < sizes restoreItems

private theorem Outside.not_within {ps : List Instr} (h : K.Outside (i :: ps) ys) :
    ¬ K.Within (.plain i :: (ps.map .plain ++ ys)) := by
  rintro ⟨hle, hge⟩
  rcases h with ⟨hpos, hys⟩ | hlt
  · have hi := hpos i List.mem_cons_self
    rw [sizes_cons, sizes_append] at hle
    omega
  · exact absurd hlt (Nat.not_lt_of_le hge)

theorem Outside.tail {ps : List Instr} (h : K.Outside (i :: ps) ys) : K.Outside ps ys := by
  rcases h with ⟨hpos, hys⟩ | hlt
  · exact .inl ⟨fun i hi => hpos i (List.mem_cons_of_mem _ hi), hys⟩
  · rw [List.map_cons, List.cons_append, sizes_cons] at hlt
    exact .inr (by omega)

theorem goes_of_leads {ps : List Instr}
    (hlead : Leads K.loaded (ps.length + 1) (.plain i :: (ps.map .plain ++ ys)) c ys d)
    (hbody : K.Within (.plain i :: (ps.map .plain ++ ys)) → Keeps K.place K.capacity c.regs)
    (outside : K.Outside ps ys) (h : K.Safe ys d) :
    K.Goes (.plain i :: (ps.map .plain ++ ys)) c := by
  induction ps generalizing i c with
  | nil =>
    cases hlead with
    | plain straight executed tail =>
      obtain rfl := tail.eq_of_zero rfl
      exact goes_plain straight executed hbody h
  | cons j ps ih =>
    cases hlead with
    | plain straight executed tail =>
      have hrest := ih tail (fun hwithin => absurd hwithin outside.not_within) outside.tail
      exact goes_plain straight executed hbody hrest.safe

/-! Callbacks. -/

/-- How far the stack has grown since the call. -/
theorem entry_rsp {low frame : Bytes} {depth : Nat} (hlow : low.length + depth + 8 = K.place.stackSize)
    (hstack : StackAt K.place.stack low frame c) :
    K.entry.regs.rsp = c.regs.rsp + UInt64.ofNat depth := by
  obtain ⟨top, htop, -, hrsp⟩ := K.enters.stack
  have hdepth : top.length = low.length + depth := by omega
  rw [hrsp, hstack.top, hdepth, UInt64.ofNat_add, UInt64.add_assoc]

/-- In front of a callback the stack is aligned as the platform asks, if the host aligned it. -/
theorem aligned {low frame : Bytes} (hlow : low.length + 56 = K.place.stackSize)
    (hstack : StackAt K.place.stack low frame c) (haligned : K.entry.regs.rsp.toNat % 16 = 8) :
    (c.regs.rsp + 8).toNat % 16 = 0 := by
  -- Five saved registers and the return address lie between the two stack pointers.
  have hentry : K.entry.regs.rsp = c.regs.rsp + 8 + 40 := by
    rw [UInt64.add_assoc]
    exact entry_rsp hlow hstack
  have h40 : (40 : UInt64).toNat = 40 := rfl
  rw [hentry, UInt64.toNat_add _ 40, h40] at haligned
  omega

private theorem caller_ne {a : UInt64} (ha : K.place.IsCallback a) : a ≠ K.place.caller := by
  rcases ha with rfl | rfl
  · exact K.sound.read_ne_caller
  · exact K.sound.write_ne_caller

theorem good_of_isHost {a : UInt64} (ha : K.place.IsHost a) (hcode : c.memory.code = K.loaded.code)
    (hcallback : K.place.IsCallback a →
      Keeps K.place K.capacity c.regs ∧ c.regs.rdi = K.place.host ∧
        (K.entry.regs.rsp.toNat % 16 = 8 → (c.regs.rsp + 8).toNat % 16 = 0))
    (hreturned : a = K.place.caller → c.regs.rsp = K.entry.regs.rsp + 8 ∧
      Restored K.place K.code K.fault K.entry 6 (c.at a)) : K.Good (c.at a) := by
  have hfetch : c.memory.code.fetch? a = none := by
    rw [hcode]
    exact fetch?_of_isHost ha
  have hoffset : K.code.bytes.length ≤ K.place.offset (c.at a) := outside_of_isHost ha
  refine ⟨.inl ha, fun _ _ _ hlast => ?_, hcallback, fun size hsize => ?_, hreturned⟩
  · have hpos : 0 < sizes restoreItems := by decide
    omega
  · exact absurd (hfetch.symm.trans hsize) nofun

/-- What the code relies on is there when a callback has returned. -/
theorem standing_of_returns {entry back : UInt64} {low : Bytes} (h : Returns (d.at entry) m')
    (hsame : SameButStack c d) (hready : K.Standing pointer fault c)
    (hlow : low.length + 56 = K.place.stackSize)
    (hstack : StackAt K.place.stack low (Bytes.ofUInt64 back ++
      (wordsOf saved.reverse K.entry.regs.get ++ Bytes.ofUInt64 K.place.caller)) d) :
    K.Standing pointer fault m'.core := by
  have hget : ∀ r ∈ preserved, m'.regs.get r = c.regs.get r := fun r hr =>
    (h.regs r hr).trans (hsame.regs r (by rintro rfl; exact absurd hr (by decide)))
  exact ⟨Invocation.inside_of_returns h hready.inside hsame hlow hstack, hready.keeps.congr hget,
    (hget .rbp (by decide)).trans hready.rbp⟩

/-- Whatever a callback does, the code can go on behind it. -/
theorem goes_call {offset : Int32} {entry : UInt64}
    (hentry : K.place.IsCallback entry) (hready : K.Ready c) (hrdi : c.regs.rdi = K.place.host)
    (hload : c.memory.loadWord? (c.regs.address (field offset)) = some entry)
    (h : ∀ c', K.Ready c' → K.Safe rest c') :
    K.Goes (.plain (.callMem (field offset)) :: rest) c := by
  -- Two states: the call itself, and the entry of the callback, from which only `Returns` leads on.
  refine goes_of_next nofun nofun hready.within fun hcode rip hat => ?_
  have hroom := K.sound.room
  obtain ⟨low, hlow, hstack⟩ := hready.inside.stack
  obtain ⟨rip', low', c₁, hrest, hcall, hlow', hstack₁, hsep₁, hsame, hcode₁⟩ :=
    next?_callMem hat hcode hload hstack (hready.inside.separate K.sound) (by omega)
  have hpreserved : ∀ r ∈ preserved, c₁.regs.get r = c.regs.get r := by
    intro r hr
    exact hsame.regs r (by rintro rfl; exact absurd hr (by decide))
  have hkeeps := hready.keeps.congr hpreserved
  have hrdi₁ : c₁.regs.rdi = K.place.host := (hsame.regs .rdi (by decide)).trans hrdi
  refine ⟨_, hcall, .step (good_of_isHost (.inr hentry) hcode₁
    (fun _ => ⟨hkeeps, hrdi₁, aligned (by omega) hstack₁⟩) fun h => absurd h (caller_ne hentry)) ?_⟩
  intro t ht
  cases ht with
  | code step =>
    have hnext := Machine.next?_eq_some.mpr step
    exact absurd (.inr hentry) (not_isHost_of_next hcode₁ hnext)
  | callback _ returns =>
    obtain rfl : rip' = t.rip := Option.some.inj ((hstack₁.loadWord? hsep₁).symm.trans returns.rip)
    exact h t.core (standing_of_returns returns hsame hready (by omega) hstack₁)
      (returns.code.trans hcode₁) t.rip hrest

/-! The exits. -/

theorem safe_leave (h : K.Leaving pointer fault c) : K.Safe leaveItems c := by
  obtain ⟨memory, hstore, -, hinside⟩ := h.inside.store_pointer K.sound pointerReg
  refine (goes_plain rfl hstore h.within fun hcode rip hat => ?_).safe
  exact .cut (.restore hcode hat ⟨⟨hinside, h.keeps, h.rbp⟩, h.status, h.refused⟩)

theorem Standing.leaving (h : K.Standing pointer fault c) (status : UInt32)
    (hstatus : status ∈ [0, 1, 2]) (hrefused : status ≠ 1 → fault = K.fault) :
    K.Leaving pointer fault (c.setReg .rax status.toUInt64) := by
  have hrax : (c.setReg .rax status.toUInt64).regs.rax.toUInt32 = status :=
    UInt32.toUInt32_toUInt64 status
  exact ⟨h.setReg (by decide) _, by rwa [hrax], by rwa [hrax]⟩

theorem safe_exits (K : Visit) : K.SafeAt K.frame.ok K.Ready ∧
    K.SafeAt K.frame.bounds (fun c => ∃ fault, K.Standing (UInt64.ofNat K.pointer) fault c) ∧
    K.SafeAt K.frame.io K.Ready := by
  obtain ⟨front, next, hitems⟩ := items_exits K.compiled K.environment
  obtain ⟨⟨_, hok⟩, ⟨_, hbounds⟩, hio, hend⟩ := K.compiled.bound_exits hitems
  refine ⟨⟨_, hok, fun c h => ?_⟩, ⟨_, hbounds, ?_⟩, ⟨_, hio, fun c h => ?_⟩⟩
  · have hleaving := h.leaving 0 (by decide) fun _ => rfl
    have hstanding := hleaving.setFlags (logicFlags .half 0)
    refine (goes_plain rfl (Core.execute?_clear c .rax) h.within ?_).safe.bind
    exact (goes_jump hend hstanding.within
      (safe_leave ⟨hstanding, hleaving.status, hleaving.refused⟩).bind).safe
  · rintro c ⟨fault, h⟩
    have hleaving := h.leaving 1 (by decide) fun hne => absurd rfl hne
    refine (goes_plain rfl (Core.execute?_movImm32 c .rax 1) h.within ?_).safe.bind
    exact (goes_jump hend hleaving.within (safe_leave hleaving).bind).safe
  · have hleaving := h.leaving 2 (by decide) fun _ => rfl
    exact (goes_plain rfl (Core.execute?_movImm32 c .rax 2) h.within
      (safe_leave hleaving).bind).safe.bind

/-- A refused move is noted before the code leaves. -/
theorem safe_stub {index : Nat} (hstub : (l, index) ∈ K.frame.stubs K.program) :
    K.SafeAt l K.Ready := by
  obtain ⟨s, rest, -, hbound⟩ := K.compiled.bound_stub hstub
  obtain ⟨-, ⟨target, hbounds, hsafe⟩, -⟩ := K.safe_exits
  rw [record_eq K.environment] at hbound
  refine ⟨_, hbound, fun c h => ?_⟩
  have h₁ := h.setReg (r := .rax) (by decide) (UInt64.ofNat s.index)
  obtain ⟨memory, hstore, -, hinside⟩ := h₁.inside.store_fault K.sound .rax
  have h₂ := Standing.mk hinside h₁.keeps h₁.rbp
  refine (goes_plain rfl (Core.execute?_movImm64 c .rax _) h.within ?_).safe.bind
  refine (goes_plain rfl hstore h₁.within ?_).safe
  exact (goes_jump hbounds h₂.within (hsafe _ ⟨_, h₂⟩)).safe

/-! The fragments. -/

theorem safe_tail {index : Nat} (hindex : index ≤ K.frame.size) (h : K.Ready c) :
    K.Safe (K.tail index) c :=
  fun hcode _ hat => .cut (.instruction hindex hcode hat h)

/-- A move that is not refused leads to a cell. -/
theorem goes_move (h : K.Ready c) (delta : Int8) (hfault : K.SafeAt l K.Ready)
    (hrest : ∀ c', K.Ready c' → K.Goes rest c') : K.Goes (moveItems delta l ++ rest) c := by
  obtain ⟨target, hbound, hsafe⟩ := hfault
  unfold moveItems
  split
  next =>
    refine goes_plain rfl (Core.execute?_lea ..) h.within ?_
    generalize c.regs.address _ = v
    have h₁ := h.setReg (r := .rax) (by decide) v
    have h₂ := h₁.setFlags (subFlags .word v c.regs.r13).2
    refine (goes_plain rfl (Core.execute?_cmp ..) h₁.within ?_).safe
    refine (goes_branch hbound h₂.within (hsafe _ h₂) fun hpassed => ?_).safe
    have hlt : v < c.regs.r13 := by
      simpa [Cond.holds, subFlags, Core.setFlags] using hpassed
    exact (goes_plain rfl (Core.execute?_mov ..) h₂.within (hrest _ (h₂.setPointer hlt)).safe).safe
  next =>
    split
    next =>
      generalize Int32.ofInt _ = k
      have h₁ := h.setFlags (subFlags .word c.regs.r12 (signExtend k)).2
      refine goes_plain rfl (Core.execute?_cmpImm ..) h.within ?_
      refine (goes_branch hbound h₁.within (hsafe _ h₁) fun hpassed => ?_).safe
      have hle : signExtend k ≤ c.regs.r12 := by
        simpa [Cond.holds, subFlags, Core.setFlags] using hpassed
      have hlt : c.regs.r12 - signExtend k < c.regs.r13 := by
        have hsub := UInt64.toNat_sub_of_le _ _ hle
        have hr12 := UInt64.lt_iff_toNat_lt.mp h.keeps.r12
        rw [UInt64.lt_iff_toNat_lt, hsub]
        omega
      exact (goes_plain rfl (Core.execute?_subImm ..) h₁.within
        (hrest _ ((h₁.setPointer hlt).setFlags _)).safe).safe
    next => exact hrest c h

private theorem goes_add (h : K.Ready c) (delta : Int8) (hrest : ∀ c', K.Ready c' → K.Goes rest c') :
    K.Goes (addItems delta ++ rest) c := by
  unfold addItems
  split
  next => exact hrest c h
  next =>
    obtain ⟨b, hb⟩ := h.load?_cell
    obtain ⟨memory, hstore, h₁⟩ := h.store?_cell (b + delta.toUInt8)
    exact goes_plain rfl (Core.execute?_addByte hb hstore) h.within (hrest _ (h₁.setFlags _)).safe

private theorem goes_loop (h : K.Ready c) (cond : Cond) (hloop : K.SafeAt l K.Ready)
    (hrest : ∀ c', K.Ready c' → K.Goes rest c') : K.Goes (loopItems cond l ++ rest) c := by
  obtain ⟨target, hbound, hsafe⟩ := hloop
  obtain ⟨b, hb⟩ := h.load?_cell
  have h₁ := h.setFlags (subFlags .byte b.toUInt64 (0 : UInt8).toUInt64).2
  refine goes_plain rfl (Core.execute?_cmpByte hb) h.within ?_
  exact (goes_branch hbound h₁.within (hsafe _ h₁) fun _ => (hrest _ h₁).safe).safe

/-- Whatever a callback returned, the code takes one of three ways. -/
theorem goes_read {s : Site} (h : K.Ready c) (hio : K.SafeAt K.frame.io K.Ready)
    (heof : K.SafeAt s.next K.Ready) (hrest : ∀ c', K.Ready c' → K.Safe rest c') :
    K.Goes ((K.frame.reading s).1 ++ rest) c := by
  obtain ⟨_, hio, hioSafe⟩ := hio
  obtain ⟨_, heof, heofSafe⟩ := heof
  rw [reading_eq K.environment]
  have h₁ := h.setReg (r := .rdi) (by decide) K.place.host
  refine goes_plain rfl (Core.execute?_load (h.inside.loadWord?_host K.sound)) h.within ?_
  refine (goes_call (.inl rfl) h₁ rfl (h₁.inside.loadWord?_readEntry K.sound) fun c₂ h₂ => ?_).safe
  refine (goes_plain rfl (Core.execute?_test32 c₂ .rax) h₂.within ?_).safe
  have h₃ := h₂.setFlags (logicFlags .half (Width.low .half c₂.regs.rax))
  refine (goes_branch hio h₃.within (hioSafe _ h₃) fun _ => ?_).safe
  have h₄ := h₃.setFlags (subFlags .half (Width.low .half c₂.regs.rax)
    (Width.low .half (signExtend endOfInput))).2
  refine (goes_plain rfl (Core.execute?_cmpImm32 ..) h₃.within ?_).safe
  exact (goes_branch heof h₄.within (heofSafe _ h₄) fun _ => hrest _ h₄).safe

private theorem goes_write {s : Site} (h : K.Ready c) (hio : K.SafeAt K.frame.io K.Ready)
    (hrest : ∀ c', K.Ready c' → K.Safe rest c') : K.Goes ((K.frame.writing s).1 ++ rest) c := by
  obtain ⟨_, hio, hioSafe⟩ := hio
  rw [writing_eq K.environment]
  have h₁ := h.setReg (r := .rdi) (by decide) K.place.host
  obtain ⟨b, hb⟩ := h₁.load?_cell
  have h₂ := h₁.setReg (r := .rsi) (by decide) b.toUInt64
  refine goes_plain rfl (Core.execute?_load (h.inside.loadWord?_host K.sound)) h.within ?_
  refine (goes_plain rfl (Core.execute?_loadByte hb) h₁.within ?_).safe
  refine (goes_call (.inr rfl) h₂ rfl (h₂.inside.loadWord?_writeEntry K.sound) fun c₃ h₃ => ?_).safe
  refine (goes_plain rfl (Core.execute?_test32 c₃ .rax) h₃.within ?_).safe
  have h₄ := h₃.setFlags (logicFlags .half (Width.low .half c₃.regs.rax))
  exact (goes_branch hio h₄.within (hioSafe _ h₄) fun _ => hrest _ h₄).safe

/-- Storing what was read. -/
theorem safe_store (h : K.Ready c) (hrest : ∀ c', K.Ready c' → K.Safe rest c') :
    K.Safe (.plain (.storeByte cell .rax) :: .bind l :: rest) c := by
  obtain ⟨memory, hstore, h₁⟩ := h.store?_cell (c.regs.get .rax).toUInt8
  exact (goes_plain rfl (Core.execute?_storeByte hstore) h.within (hrest _ h₁).bind).safe

private theorem safe_endItem {store done : Label} (h : K.Ready c) (policy : EndOfInput)
    (hdone : K.loaded.Bound done (.bind done :: rest)) (hrest : ∀ c', K.Ready c' → K.Safe rest c') :
    K.Safe (Compiled.endItem policy done :: .bind store :: .plain (.storeByte cell .rax) ::
      .bind done :: rest) c := by
  cases policy with
  | unchanged => exact (goes_jump hdone h.within (hrest c h).bind).safe
  | zero =>
    have h₁ := (h.setReg (r := .rax) (by decide) 0).setFlags (logicFlags .half 0)
    exact (goes_plain rfl (Core.execute?_clear c .rax) h.within (safe_store h₁ hrest).bind).safe
  | minusOne =>
    have h₁ := h.setReg (r := .rax) (by decide) 255
    exact (goes_plain rfl (Core.execute?_movImm32 c .rax 255) h.within (safe_store h₁ hrest).bind).safe

/-- From any instruction of the program, the code complies up to the next cut. -/
theorem goes_tail {index : Nat} (hindex : index ≤ K.frame.size) (h : K.Ready c) :
    K.Goes (K.tail index) c := by
  obtain ⟨hok, -, hio⟩ := K.safe_exits
  -- By induction on what is left, as moves and additions by zero have no code and take no step: there
  -- the next cut is at the same address.
  induction hleft : K.frame.size - index generalizing index c with
  | zero =>
    obtain rfl : index = K.program.length := by
      rw [K.compiled.size]
      omega
    obtain ⟨target, hbound, hsafe⟩ := hok
    rw [tail, Frame.tail_length, Frame.ending]
    exact (goes_jump hbound h.within (hsafe c h)).bind
  | succ left ih =>
    have hlt : index < K.program.length := by
      rw [K.compiled.size]
      omega
    have hi := List.getElem?_eq_getElem hlt
    have hrest : ∀ c', K.Ready c' → K.Goes (K.tail (index + 1)) c' := fun c' h' =>
      ih (by omega) h' (by omega)
    have hsafe : ∀ c', K.Ready c' → K.Safe (K.tail (index + 1)) c' := fun c' h' => (hrest c' h').safe
    have hloop : ∀ {k}, k ≤ K.frame.size → K.SafeAt (K.frame.address k) K.Ready := fun hk =>
      ⟨_, K.compiled.bound_address hk, fun c' h' => safe_tail hk h'⟩
    obtain ⟨s, -, hplaced, htail⟩ := Frame.exists_placed (f := K.frame) hi
    have hwithin := K.compiled.target_le hi
    cases hinstr : K.program[index] with
    | move delta =>
      rw [hinstr] at htail hplaced
      rw [tail, htail, Frame.piece_move]
      exact (goes_move h delta (safe_stub (Frame.mem_stubs_of_placed hplaced)) hrest).bind
    | add delta =>
      rw [hinstr] at htail
      rw [tail, htail, Frame.piece_add]
      exact (goes_add h delta hrest).bind
    | input =>
      rw [hinstr] at hi
      obtain ⟨s, htail, heof, hstore, hdone⟩ := K.compiled.tail_input hi
      rw [tail, htail]
      refine (goes_read h hio ⟨_, heof, fun c' h' => ?_⟩ fun c' h' => ?_).bind
      · exact (safe_endItem h' _ hdone hsafe).bind
      · exact (goes_jump hstore h'.within (safe_store h' hsafe).bind).safe
    | output =>
      rw [hinstr] at hi
      obtain ⟨s, htail⟩ := K.compiled.tail_output hi
      rw [tail, htail]
      exact (goes_write h hio hsafe).bind
    | loopOpen target =>
      rw [hinstr] at htail hwithin
      rw [tail, htail, Frame.piece_of_ok (Frame.fragment_loopOpen hwithin s)]
      exact (goes_loop h .equal (hloop hwithin) hrest).bind
    | loopClose target =>
      rw [hinstr] at htail hwithin
      rw [tail, htail, Frame.piece_of_ok (Frame.fragment_loopClose hwithin s)]
      exact (goes_loop h .notEqual (hloop hwithin) hrest).bind

/-! The way out. -/

theorem Leaving.restored {rip : UInt64} {n : Nat} {m : Machine} (h : K.Leaving c.regs.r12 fault c)
    (hreachable : ReflTransGen K.place.Moves K.entry (c.at rip)) (hat : K.loaded.At restoreItems rip)
    (hsteps : Reaches Machine.next? n (c.at rip) m) (hcontext : m.memory.context = c.memory.context)
    (hrax : m.regs.rax = c.regs.rax) (hregs : ∀ r ∈ preserved, m.regs.get r = K.entry.regs.get r) :
    Restored K.place K.code K.fault K.entry n m where
  regs := hregs
  status := by
    rw [hrax]
    exact h.status
  context := by
    refine ⟨c.at rip, fault, hreachable, offset_of_at hat, hsteps,
      hcontext.trans h.inside.context, ?_⟩
    rw [hrax]
    exact h.refused

/-- The code restores registers and returns. -/
theorem goes_restore {rip : UInt64} (h : K.Leaving c.regs.r12 fault c)
    (hreachable : ReflTransGen K.place.Moves K.entry (c.at rip))
    (hcode : c.memory.code = K.loaded.code) (hat : K.loaded.At restoreItems rip) :
    K.Good (c.at rip) ∧ ∀ t, K.place.Moves (c.at rip) t → K.Until t := by
  -- This is a cut for `hreachable` only, since `Restored` speaks of the state in which it starts.
  obtain ⟨low, hlow, hstack⟩ := h.inside.stack
  have hsep := h.inside.separate K.sound
  obtain ⟨low', d, hpops, hstack', hmemory, hvalues, hkeep⟩ :=
    Leads.pops (L := K.loaded) [.plain .ret] (by decide) hstack hsep
  have hlow' : low'.length + 8 = K.place.stackSize := by
    have hsame := congrArg (fun g : Region => g.bytes.size) (hstack'.region.symm.trans
      ((congrArg Memory.stack hmemory).trans hstack.region))
    simp only [List.size_toArray, List.length_append, length_wordsOf, Bytes.length_ofUInt64,
      List.length_reverse] at hsame
    have hsaved : saved.length = 5 := rfl
    omega
  have hregs : ∀ r ∈ preserved, d.regs.get r = K.entry.regs.get r := by
    intro r hr
    by_cases hr' : r ∈ saved.reverse
    · exact hvalues r hr'
    · obtain rfl : r = .rbp := by
        revert r
        decide
      exact (hkeep .rbp (by decide) (by decide)).trans h.rbp
  have hrax : d.regs.rax = c.regs.rax := hkeep .rax (by decide) (by decide)
  have hcontext : d.memory.context = c.memory.context := congrArg Memory.context hmemory
  have hrsp : d.regs.rsp = K.entry.regs.rsp := by
    have hentry : K.entry.regs.rsp = d.regs.rsp + UInt64.ofNat 0 := entry_rsp hlow' hstack'
    exact (hentry.trans (UInt64.add_zero _)).symm
  have outside : K.Outside [.pop .r14, .pop .r13, .pop .r12, .pop .rbx] [.plain .ret] :=
    .inr (by decide)
  refine goes_of_leads (i := .pop .r15) hpops h.within outside (fun hcode' rip' hat' => ?_) hcode rip hat
  obtain ⟨rip'', hsteps, hat'', -⟩ := hpops.reaches (e := id) (fun _ _ _ hnext => hnext) hat hcode
  obtain rfl := hat''.unique hat'
  have hnext := Call.next?_ret hat' hcode' (by rwa [List.append_nil]) (by rwa [hmemory])
  have hrestored := h.restored hreachable hat hsteps hcontext hrax hregs
  refine .step (good_of_next hat' hcode' nofun hnext ?_ fun _ => ⟨hrsp, hrestored⟩) fun t ht => ?_
  · intro hwithin
    exact absurd hwithin.2 (by decide)
  · rw [eq_of_moves hcode' hnext ht]
    have hregs' : ∀ r ∈ preserved,
        (d.setReg .rsp (d.regs.rsp + 8)).regs.get r = K.entry.regs.get r := by
      intro r hr
      rw [← hregs r hr]
      exact Registers.get_set_of_ne _ _ (by rintro rfl; exact absurd hr (by decide))
    have hreturned := h.restored hreachable hat (hsteps.trans (.single hnext)) hcontext hrax hregs'
    have hcaller : ¬ K.place.IsCallback K.place.caller := fun hentry => caller_ne hentry rfl
    refine .step (good_of_isHost (.inl rfl) hcode' (fun hentry => absurd hentry hcaller)
      fun _ => ⟨?_, hreturned⟩) fun t' ht' => ?_
    · rw [← hrsp]
      rfl
    · cases ht' with
      | code step =>
        have hnext' := Machine.next?_eq_some.mpr step
        exact absurd (.inl rfl) (not_isHost_of_next hcode' hnext')
      | callback entry _ => exact absurd entry hcaller

/-! The whole call. -/

theorem until_entry (K : Visit) : K.Until K.entry := by
  obtain ⟨c, hlead, hinside, -, hrbx, hr12, hr13, hrbp⟩ :=
    K.enters.leads_prologue (L := K.loaded) K.sound (K.tail 0)
  have hlt : c.regs.r12 < c.regs.r13 := by
    rw [hr12, hr13, UInt64.lt_iff_toNat_lt, UInt64.toNat_ofNat_of_lt' K.capacity_lt,
      UInt64.toNat_ofNat_of_lt' (Nat.lt_trans K.onCell K.capacity_lt)]
    exact K.onCell
  have hready : K.Ready c := ⟨hinside, ⟨hrbx, hlt, hr13, hinside.r14⟩, hrbp⟩
  have hat : K.loaded.At ((expansion [] 0 HostCalls.environment.prologue).1 ++ K.tail 0)
      K.entry.rip := by
    refine ⟨[], ?_, ?_⟩
    · rw [K.compiled.items, Frame.layout, K.environment, List.nil_append]
    · rw [K.enters.rip, K.origin_eq, K.start, sizes_nil]
  have hcode : K.entry.memory.code = K.loaded.code := K.enters.code.trans K.placed.symm
  have outside : K.Outside [.push .rbx, .push .r12, .push .r13, .push .r14, .push .r15,
      .mov tapeReg .rdi, .mov capacityReg .rsi, .mov contextReg .rdx,
      .load pointerReg (field pointerField)] (K.tail 0) :=
    .inl ⟨by decide, Nat.le_refl _⟩
  rw [expansion_of_expand (expand_prologue 0)] at hlead hat
  have hgoes := goes_of_leads (i := .push .rbx) hlead (fun hwithin => absurd hwithin outside.not_within)
    outside.tail (safe_tail (Nat.zero_le _) hready)
  exact hgoes.safe hcode K.entry.rip hat

/-- Every state that can be reached complies. -/
theorem good_of_moves (K : Visit) {m : Machine} (h : ReflTransGen K.place.Moves K.entry m) :
    K.Good m := by
  refine good_of_reachable (fun s hs hcut => ?_) K.until_entry h
  cases hcut with
  | instruction hindex hcode hat ready => exact goes_tail hindex ready hcode _ hat
  | restore hcode hat leaving => exact goes_restore leaving hs hcode hat

end Visit

section

variable {p : Program} {policy : EndOfInput} {code : MachineCode} {place : Placement}
  {capacity pointer : Nat} {fault : UInt64} {entry m : Machine}

theorem exists_visit (hgenerate : generate p HostCalls.environment policy = .ok code)
    (sound : place.Sound code.bytes.length capacity) (onCell : pointer < capacity)
    (enters : place.Enters code capacity pointer fault entry) :
    ∃ K : Visit, K.place = place ∧ K.code = code ∧ K.capacity = capacity ∧ K.fault = fault ∧
      K.entry = entry := by
  have targets := targetsWithin_of_generate HostCalls.tidy hgenerate
  obtain ⟨d, -, hgenerated⟩ := generated_of_generate hgenerate
  let K : Visit := {
    place, code, capacity, pointer, fault, entry, sound, onCell, enters
    loaded := Call.loadedCode targets hgenerate sound.code_fits place.code
    frame := .of p HostCalls.environment policy
    program := p.instructions.toList
    compiled := ⟨rfl, rfl, HostCalls.tidy, targets, rfl, rfl⟩
    environment := rfl
    text := rfl
    header := rfl
    placed := rfl
    first := hgenerated.getElem?_addresses (Nat.zero_le _) rfl
    start := (codeBytes_of_generate HostCalls.tidy targets hgenerate).2.1 }
  exact ⟨K, rfl, rfl, rfl, rfl, rfl⟩

/-- Compiled code respects its contract with the host in every state that a call can reach, whatever the
callbacks do: it is at an instruction or with the host, keeps what it relies on in registers, aligns the
stack for callbacks, and returns with the caller's registers, a status and its pointer. -/
theorem complies_of_reachable (hgenerate : generate p HostCalls.environment policy = .ok code)
    (sound : place.Sound code.bytes.length capacity) (onCell : pointer < capacity)
    (enters : place.Enters code capacity pointer fault entry)
    (reachable : ReflTransGen place.Moves entry m) :
    Complies place code capacity fault entry m := by
  obtain ⟨K, rfl, rfl, rfl, rfl, rfl⟩ := exists_visit hgenerate sound onCell enters
  exact K.good_of_moves reachable

/-- Where the interpreter ends, a call gets back to the caller. -/
theorem exists_returned {host : Host} {tape : Tape} {input : Input} {output : Output} {fuel : Nat}
    {e : Ending} {s : Interpreter.State}
    (hgenerate : generate p HostCalls.environment policy = .ok code) (hsize : p.size ≤ wordLimit)
    (conforms : host.Conforms code tape) (onCell : tape.OnCell) (hcapacity : tape.capacity < 2 ^ 63)
    (hrun : Interpreter.run fuel p policy tape input output = some (e, s)) :
    ∃ m, ReflTransGen host.place.Moves (host.enter code tape) m ∧ m.rip = host.place.caller := by
  have targets := targetsWithin_of_generate HostCalls.tidy hgenerate
  let K := Call.ofProgram targets hgenerate conforms
  obtain ⟨k, v₀, hstart, hv₀⟩ :=
    Call.ofProgram_enters targets hgenerate conforms onCell hcapacity input output
  have hfollows : Realization.Follows K.frame p K.Stands ⟨tape, 0, input, output⟩ v₀ :=
    ⟨Nat.zero_le _, hv₀⟩
  obtain ⟨n, v, hreach, status, fault, hleft, -⟩ :=
    (K.realization hsize).forward rfl hstart hfollows hrun
  refine ⟨v.machine, Invocation.moves_of_reaches conforms.answers hreach, ?_⟩
  have hstep := hleft.step
  rcases Invocation.step_cases conforms.answers v with hcaller | ⟨t, hnext, -⟩ | hcrash
  · exact hcaller
  · cases hstep.symm.trans hnext
  · cases hstep.symm.trans hcrash

end

/-- A byte is read and written, and then the pointer would leave the tape. -/
theorem complies_of_reachable_refused :
    ∃ code m, generate ⟨#[.input, .loopOpen 5, .output, .move (-1), .loopClose 2]⟩
        HostCalls.environment .zero = .ok code ∧
      ReflTransGen (Placement.Moves {}) (Placement.enter {} code (Tape.new 1)) m ∧
      m.rip = ({} : Placement).caller ∧
      Complies {} code 1 0 (Placement.enter {} code (Tape.new 1)) m := by
  have small := codeSize_le (p := ⟨#[.input, .loopOpen 5, .output, .move (-1), .loopClose 2]⟩)
    HostCalls.tidy HostCalls.compact (by decide) (by decide) .zero
  have hrun : (Interpreter.run 10 ⟨#[.input, .loopOpen 5, .output, .move (-1), .loopClose 2]⟩ .zero
      (Tape.new 1) (Input.ofBytes [7]) {}).isSome = true := by
    decide
  obtain ⟨⟨e, s⟩, hrun⟩ := Option.isSome_iff_exists.mp hrun
  have onCell : (Tape.new 1).OnCell := Nat.zero_lt_one
  obtain ⟨code, hgenerate⟩ := generate_ok HostCalls.tidy (by decide) small
  have sound : Placement.Sound {} code.bytes.length 1 := by
    rw [length_bytes_of_generate HostCalls.tidy (by decide) hgenerate]
    exact Placement.sound_default small (by decide)
  have conforms : (Host.plain {} fun _ => {}).Conforms code (Tape.new 1) :=
    Host.conforms_plain sound (by decide) _
  obtain ⟨m, hreachable, hcaller⟩ :=
    exists_returned hgenerate (by decide) conforms onCell (by decide) hrun
  exact ⟨code, m, hgenerate, hreachable, hcaller, complies_of_reachable hgenerate sound onCell
    conforms.enters hreachable⟩

end TapeLang.Native
