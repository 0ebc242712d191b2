import TapeLang.Proofs.Assembly.Stack
import TapeLang.Proofs.Interpreter.Steps
import TapeLang.Proofs.Native.Layout

/-!
# Fragments that need no environment

Moves, additions and loop ends do on the machine what they do on the tape. They change the tape,
the pointer, the flags and `rax`, and nothing else.
-/

namespace TapeLang.Native

open X86 Assembly

/-- A program's code in memory. -/
structure Compiled (f : Frame) (is : List Instruction) (L : Loaded) : Prop where
  items : L.items = f.layout is
  labels : L.labels = f.labels is
  tidy : f.environment.Tidy
  targets : ∀ i ∈ is, TargetsWithin f.size i
  size : is.length = f.size
  first : f.first = (expansion [] 0 f.environment.prologue).2

namespace Compiled

variable {f : Frame} {is : List Instruction} {L : Loaded}

theorem bound (C : Compiled f is L) {l : Label} {front rest : List (Item Label)}
    (h : L.items = front ++ .bind l :: rest) : L.Bound l (.bind l :: rest) := by
  refine Loaded.bound_of_once (fun k => ?_) h
  rw [C.items, C.labels]
  exact Frame.count_boundLabels_layout C.tidy C.targets C.size C.first k

private theorem exists_tail_eq (C : Compiled f is L) {index : Nat} (h : index ≤ f.size) :
    ∃ rest, f.tail is index = .bind (f.address index) :: rest := by
  rw [← C.size] at h
  rcases Nat.lt_or_eq_of_le h with hlt | rfl
  · obtain ⟨s, -, -, htail⟩ := Frame.exists_placed (f := f) (List.getElem?_eq_getElem hlt)
    exact ⟨_, htail⟩
  · rw [Frame.tail_length, C.size]
    exact ⟨_, rfl⟩

/-- The label of an index is where its instruction is. -/
theorem bound_address (C : Compiled f is L) {index : Nat} (h : index ≤ f.size) :
    L.Bound (f.address index) (f.tail is index) := by
  obtain ⟨rest, hrest⟩ := C.exists_tail_eq h
  obtain ⟨front, hfront⟩ := f.layout_eq_append_tail is index
  rw [hrest]
  exact C.bound (by rw [C.items, hfront, hrest])

private theorem items_ending (C : Compiled f is L) :
    ∃ front, L.items = front ++ f.ending (f.behind f.start is) (f.stubs is) := by
  obtain ⟨front, hfront⟩ := f.layout_eq_append_tail is is.length
  exact ⟨front, by rw [C.items, hfront, Frame.tail_length]⟩

/-- The label of a stub is where it notes its index and leaves. -/
theorem bound_stub (C : Compiled f is L) {l index : Nat} (h : (l, index) ∈ f.stubs is) :
    ∃ s rest, s.index = index ∧
      L.Bound l (.bind l :: ((f.record s).1 ++ .jump f.bounds :: rest)) := by
  obtain ⟨front, hfront⟩ := C.items_ending
  obtain ⟨before, s, back, hindex, hstub⟩ :=
    Frame.stubCode_eq (f := f) h (f.atStubs (f.behind f.start is))
  rw [Frame.ending, hstub] at hfront
  generalize (f.leaving _).1 = epilogue at hfront
  have hitems : L.items = (front ++ .bind (f.address f.size) :: .jump f.ok :: before) ++ .bind l ::
      ((f.record s).1 ++ .jump f.bounds :: (back ++ epilogue)) := by
    simp [hfront]
  exact ⟨s, _, hindex, C.bound hitems⟩

/-- The exits are at the end. -/
theorem items_epilogue (C : Compiled f is L) : ∃ front s, L.items = front ++ (f.leaving s).1 := by
  obtain ⟨front, hfront⟩ := C.items_ending
  generalize hcode : f.stubCode (f.atStubs (f.behind f.start is)) (f.stubs is) = code
  rw [Frame.ending, hcode] at hfront
  exact ⟨front ++ .bind (f.address f.size) :: .jump f.ok :: code.1, code.2, by simp [hfront]⟩

/-- Each exit has an instruction of its own, and the same end. -/
theorem bound_exits (C : Compiled f is L) {front rest : List (Item Label)} {next : Label}
    {ok bounds io : Instr}
    (h : L.items = front ++ .bind f.ok :: .plain ok :: .jump next :: .bind f.bounds ::
      .plain bounds :: .jump next :: .bind f.io :: .plain io :: .bind next :: rest) :
    (∃ back, L.Bound f.ok (.bind f.ok :: .plain ok :: .jump next :: back)) ∧
      (∃ back, L.Bound f.bounds (.bind f.bounds :: .plain bounds :: .jump next :: back)) ∧
      L.Bound f.io (.bind f.io :: .plain io :: .bind next :: rest) ∧
      L.Bound next (.bind next :: rest) := by
  have h₁ : L.items = (front ++ [.bind f.ok, .plain ok, .jump next]) ++ .bind f.bounds ::
      .plain bounds :: .jump next :: .bind f.io :: .plain io :: .bind next :: rest := by
    simp [h]
  have h₂ : L.items = (front ++ [.bind f.ok, .plain ok, .jump next, .bind f.bounds, .plain bounds,
      .jump next]) ++ .bind f.io :: .plain io :: .bind next :: rest := by
    simp [h]
  have h₃ : L.items = (front ++ [.bind f.ok, .plain ok, .jump next, .bind f.bounds, .plain bounds,
      .jump next, .bind f.io, .plain io]) ++ .bind next :: rest := by
    simp [h]
  exact ⟨⟨_, C.bound h⟩, ⟨_, C.bound h₁⟩, C.bound h₂, C.bound h₃⟩

/-- From a label, the code goes on to some items with one instruction. -/
def LeavesBy (L : Loaded) (l : Label) (i : Instr) (rest : List (Item Label)) : Prop :=
  ∃ target, L.Bound l target ∧
    ∀ {c c' : Core}, c.execute? i = some c' → ∃ n, Leads L n target c rest c'

theorem leavesBy (C : Compiled f is L) {front rest : List (Item Label)} {next : Label}
    {ok bounds io : Instr} (hok : ok.isStraight = true) (hbounds : bounds.isStraight = true)
    (hio : io.isStraight = true)
    (h : L.items = front ++ .bind f.ok :: .plain ok :: .jump next :: .bind f.bounds ::
      .plain bounds :: .jump next :: .bind f.io :: .plain io :: .bind next :: rest) :
    LeavesBy L f.ok ok rest ∧ LeavesBy L f.bounds bounds rest ∧ LeavesBy L f.io io rest := by
  obtain ⟨⟨_, h₁⟩, ⟨_, h₂⟩, h₃, hend⟩ := C.bound_exits h
  exact ⟨⟨_, h₁, fun hc => ⟨_, .bind (.plain hok hc (.jump hend (.bind .refl)))⟩⟩,
    ⟨_, h₂, fun hc => ⟨_, .bind (.plain hbounds hc (.jump hend (.bind .refl)))⟩⟩,
    ⟨_, h₃, fun hc => ⟨_, .bind (.plain hio hc (.bind .refl))⟩⟩⟩

end Compiled

/-- The machine holds a tape: the first cell's address is in `rbx`, the pointer in `r12` and the capacity
in `r13`. -/
structure Holds (base : UInt64) (t : Tape) (c : Core) : Prop where
  tape : c.memory.tape = ⟨base, t.cells⟩
  rbx : c.regs.rbx = base
  r12 : c.regs.r12 = UInt64.ofNat t.pointer
  r13 : c.regs.r13 = UInt64.ofNat t.capacity
  onCell : t.OnCell
  /-- No move from a cell leaves the address space. -/
  small : t.capacity + 128 ≤ UInt64.size

/-- Nothing changed but the tape, the pointer, the flags and `rax`. -/
structure Kept (c c' : Core) : Prop where
  context : c'.memory.context = c.memory.context
  stack : c'.memory.stack = c.memory.stack
  regs : ∀ r, r ≠ .rax → r ≠ .r12 → c'.regs.get r = c.regs.get r

theorem Kept.refl (c : Core) : Kept c c :=
  ⟨rfl, rfl, fun _ _ _ => rfl⟩

namespace Holds

variable {base : UInt64} {t : Tape} {c : Core}

theorem address_cell (h : Holds base t c) :
    c.regs.address cell = c.memory.tape.base + UInt64.ofNat t.pointer := by
  have haddress : c.regs.address cell = c.regs.rbx + c.regs.r12 + 0 := rfl
  rw [haddress, h.rbx, h.r12, h.tape, UInt64.add_zero]

theorem capacity_lt (h : Holds base t c) : t.capacity < UInt64.size :=
  Nat.lt_of_lt_of_le (Nat.lt_add_of_pos_right (by decide)) h.small

theorem pointer_lt (h : Holds base t c) : t.pointer < UInt64.size :=
  Nat.lt_trans h.onCell h.capacity_lt

theorem contains_cell (h : Holds base t c) :
    c.memory.tape.contains (c.regs.address cell) = true := by
  have hsize : c.memory.tape.bytes.size = t.capacity := by rw [h.tape, Tape.capacity]
  have hfits : c.memory.tape.bytes.size ≤ UInt64.size := by
    rw [hsize]
    exact Nat.le_of_lt h.capacity_lt
  rw [h.address_cell]
  exact Region.contains_offset (by rw [hsize]; exact h.onCell) hfits

/-- Loading the current cell. -/
theorem load?_cell (h : Holds base t c) : c.memory.load? (c.regs.address cell) = t.get? := by
  rw [Memory.load?, if_pos h.contains_cell, h.address_cell, Region.load?_offset h.pointer_lt, h.tape]
  rfl

/-- Storing in the current cell. -/
theorem store?_cell (h : Holds base t c) (b : UInt8) :
    c.memory.store? (c.regs.address cell) b =
      some { c.memory with tape := ⟨base, (t.set b).cells⟩ } := by
  have hcontains := h.contains_cell
  have hstore : c.memory.tape.store (c.regs.address cell) b = ⟨base, (t.set b).cells⟩ := by
    rw [h.address_cell, Region.store_offset h.pointer_lt, h.tape]
    rfl
  rcases hm : c.memory with ⟨code, tape, context, stack⟩
  rw [hm] at hcontains hstore
  simp only [Memory.store?, hcontains, if_true, hstore]

theorem set (h : Holds base t c) (b : UInt8) (flags : Flags) :
    Holds base (t.set b) ⟨c.regs, flags, { c.memory with tape := ⟨base, (t.set b).cells⟩ }⟩ where
  tape := rfl
  rbx := h.rbx
  r12 := h.r12
  r13 := by rw [Tape.capacity_set]; exact h.r13
  onCell := h.onCell.set b
  small := by rw [Tape.capacity_set]; exact h.small

/-- Neither `rax` nor the flags hold anything of the tape. -/
theorem setRax (h : Holds base t c) (v : UInt64) (flags : Flags) :
    Holds base t ⟨c.regs.set .rax v, flags, c.memory⟩ ∧
      Kept c ⟨c.regs.set .rax v, flags, c.memory⟩ :=
  ⟨⟨h.tape, h.rbx, h.r12, h.r13, h.onCell, h.small⟩, rfl, rfl,
    fun _ hr _ => Registers.get_set_of_ne _ _ hr⟩

theorem setReg (h : Holds base t c) {r : Reg} (hr : r ∉ [.rbx, .r12, .r13]) (v : UInt64) :
    Holds base t (c.setReg r v) := by
  have hget : ∀ r' ∈ [Reg.rbx, .r12, .r13], (c.regs.set r v).get r' = c.regs.get r' := by
    intro r' hr'
    exact Registers.get_set_of_ne _ _ (by rintro rfl; exact hr hr')
  exact ⟨h.tape, (hget .rbx (by decide)).trans h.rbx, (hget .r12 (by decide)).trans h.r12,
    (hget .r13 (by decide)).trans h.r13, h.onCell, h.small⟩

theorem setFlags (h : Holds base t c) (flags : Flags) : Holds base t (c.setFlags flags) :=
  ⟨h.tape, h.rbx, h.r12, h.r13, h.onCell, h.small⟩

end Holds

theorem Kept.setFlags (c : Core) (flags : Flags) : Kept c (c.setFlags flags) :=
  ⟨rfl, rfl, fun _ _ _ => rfl⟩

section

variable {L : Loaded} {base : UInt64} {t : Tape} {c : Core} {rest target : List (Item Label)}
  {fault : Label}

/-- In at least `k` steps, code gets from some items to others, with a tape in the machine and the rest
kept. -/
def Arrives (L : Loaded) (base : UInt64) (k : Nat) (xs : List (Item Label)) (c : Core)
    (ys : List (Item Label)) (t : Tape) : Prop :=
  ∃ n c', k ≤ n ∧ Leads L n xs c ys c' ∧ Holds base t c' ∧ Kept c c'

theorem arrives_add (h : Holds base t c) (d : Int8) :
    Arrives L base 0 (addItems d ++ rest) c rest (t.add d) := by
  obtain ⟨b, hb⟩ := h.onCell.get?
  unfold addItems
  split
  next hd =>
    rw [hd, Tape.add_zero]
    exact ⟨0, c, Nat.zero_le _, .refl, h, .refl c⟩
  next =>
    have hload := h.load?_cell.trans hb
    refine ⟨1, _, Nat.zero_le _, .plain rfl (Core.execute?_addByte hload (h.store?_cell _)) .refl, ?_,
      rfl, rfl, fun _ _ _ => rfl⟩
    rw [Tape.add_eq_set hb]
    exact h.set _ _

/-! Comparisons as the flags show them. -/

theorem zero_compare (b : UInt8) :
    (subFlags .byte b.toUInt64 (0 : UInt8).toUInt64).2.zero = (b == 0) := by
  have hzero : b.toUInt64 - (0 : UInt8).toUInt64 = b.toUInt64 := UInt64.sub_zero _
  simp only [subFlags, hzero]
  apply Bool.eq_iff_iff.mpr
  rw [beq_iff_eq, beq_iff_eq, ← UInt64.toNat_inj, ← UInt8.toNat_inj, toNat_low_byte,
    UInt8.toNat_toUInt64]
  simp

private theorem carry_compare {a b : Nat} (ha : a < UInt64.size) (hb : b < UInt64.size) :
    (subFlags .word (UInt64.ofNat a) (UInt64.ofNat b)).2.carry = decide (a < b) := by
  have hlt : UInt64.ofNat a < UInt64.ofNat b ↔ a < b := by
    rw [UInt64.lt_iff_toNat_lt, UInt64.toNat_ofNat_of_lt' ha, UInt64.toNat_ofNat_of_lt' hb]
  simp only [subFlags, hlt]

/-- A loop end looks at the current cell. -/
theorem leads_compare (h : Holds base t c) {b : UInt8} (hb : t.get? = some b) :
    ∃ c', Leads L 1 (.plain (.aluByteImm .cmp cell 0) :: rest) c rest c' ∧
      c'.flags.zero = (b == 0) ∧ Holds base t c' ∧ Kept c c' := by
  refine ⟨_, .plain rfl (Core.execute?_cmpByte (h.load?_cell.trans hb)) .refl, zero_compare b, ?_,
    rfl, rfl, fun _ _ _ => rfl⟩
  exact ⟨h.tape, h.rbx, h.r12, h.r13, h.onCell, h.small⟩

private theorem arrives_loopItems (h : Holds base t c) {b : UInt8} (hb : t.get? = some b) {cond : Cond}
    {taken : Bool} (hcond : ∀ flags : Flags, flags.zero = (b == 0) → cond.holds flags = taken)
    {l : Label} (hbound : L.Bound l target) (rest : List (Item Label)) :
    Arrives L base 1 (loopItems cond l ++ rest) c (if taken then target else rest) t := by
  obtain ⟨c', hlead, hzero, hholds, hkept⟩ := leads_compare (L := L) h hb
  have hflags := hcond c'.flags hzero
  cases taken with
  | true => exact ⟨_, c', by omega, hlead.trans (.taken hflags hbound .refl), hholds, hkept⟩
  | false => exact ⟨_, c', by omega, hlead.trans (.passed hflags .refl), hholds, hkept⟩

/-! Moves. -/

/-- The core after the pointer was set. -/
theorem Holds.point (h : Holds base t c) {pointer : Nat} (hlt : pointer < t.capacity) {c' : Core}
    (hr12 : c'.regs.r12 = UInt64.ofNat pointer) (htape : c'.memory.tape = c.memory.tape)
    (hkept : Kept c c') : Holds base ⟨t.cells, pointer⟩ c' where
  tape := htape.trans h.tape
  rbx := (hkept.regs .rbx (by decide) (by decide)).trans h.rbx
  r12 := hr12
  r13 := (hkept.regs .r13 (by decide) (by decide)).trans h.r13
  onCell := hlt
  small := h.small

theorem Kept.trans {c c' c'' : Core} (h : Kept c c') (h' : Kept c' c'') : Kept c c'' :=
  ⟨h'.context.trans h.context, h'.stack.trans h.stack,
    fun r hr hr' => (h'.regs r hr hr').trans (h.regs r hr hr')⟩

/-- Where the pointer would get is in `rax`, and the carry says whether it is on the tape. -/
theorem leads_probe (h : Holds base t c) {k : Nat} (hk : k ≤ 128) :
    ∃ c', Leads L 2 (.plain (.lea .rax { base := pointerReg, disp := Int32.ofInt k }) ::
        .plain (.cmp .rax capacityReg) :: rest) c rest c' ∧
      c'.regs.rax = UInt64.ofNat (t.pointer + k) ∧
      c'.flags.carry = decide (t.pointer + k < t.capacity) ∧ Holds base t c' ∧ Kept c c' := by
  have hrax : c.regs.address { base := pointerReg, disp := Int32.ofInt k } =
      UInt64.ofNat (t.pointer + k) := by
    have haddress : c.regs.address { base := pointerReg, disp := Int32.ofInt k } =
        c.regs.r12 + 0 + signExtend (Int32.ofInt k) := rfl
    rw [haddress, h.r12, signExtend_ofNat (by omega), UInt64.add_zero, UInt64.ofNat_add]
  have hsum : t.pointer + k < UInt64.size := by
    have hpointer : t.pointer < t.capacity := h.onCell
    have hsmall := h.small
    omega
  have hkept : Kept c ((c.setReg .rax (c.regs.address { base := pointerReg, disp := Int32.ofInt k })).setFlags
      (subFlags .word (c.regs.address { base := pointerReg, disp := Int32.ofInt k }) c.regs.r13).2) :=
    ⟨rfl, rfl, fun r hr _ => Registers.get_set_of_ne _ _ hr⟩
  refine ⟨_, .plain rfl (Core.execute?_lea ..) (.plain rfl (Core.execute?_cmp ..) .refl), hrax, ?_,
    h.point h.onCell h.r12 rfl hkept, hkept⟩
  show (subFlags .word (c.regs.address { base := pointerReg, disp := Int32.ofInt k }) c.regs.r13).2.carry = _
  rw [hrax, h.r13, carry_compare hsum h.capacity_lt]

/-- The carry says whether a step back would leave the tape. -/
theorem leads_probe_back (h : Holds base t c) {k : Nat} (hk : k ≤ 128) :
    ∃ c', Leads L 1 (.plain (.aluImm .cmp pointerReg (Int32.ofInt k)) :: rest) c rest c' ∧
      c'.flags.carry = decide (t.pointer < k) ∧ Holds base t c' ∧ Kept c c' := by
  have hkept : Kept c (c.setFlags (subFlags .word c.regs.r12 (signExtend (Int32.ofInt k))).2) :=
    ⟨rfl, rfl, fun _ _ _ => rfl⟩
  refine ⟨_, .plain rfl (Core.execute?_cmpImm ..) .refl, ?_, h.point h.onCell h.r12 rfl hkept, hkept⟩
  show (subFlags .word c.regs.r12 (signExtend (Int32.ofInt k))).2.carry = _
  rw [h.r12, signExtend_ofNat (by omega),
    carry_compare h.pointer_lt (Nat.lt_of_le_of_lt hk (by decide))]

private theorem arrives_forward (h : Holds base t c) {k : Nat} (hk : k ≤ 128)
    (inside : t.pointer + k < t.capacity) :
    Arrives L base 0 (.plain (.lea .rax { base := pointerReg, disp := Int32.ofInt k }) ::
      .plain (.cmp .rax capacityReg) :: .branch .aboveOrEqual fault ::
      .plain (.mov pointerReg .rax) :: rest) c rest ⟨t.cells, t.pointer + k⟩ := by
  obtain ⟨c₁, hlead, hrax, hcarry, hholds, hkept⟩ := leads_probe (L := L) h hk
  have hpassed : Cond.holds .aboveOrEqual c₁.flags = false := by
    rw [Cond.holds, hcarry, decide_eq_true inside]
    rfl
  have hkept' : Kept c (c₁.setReg .r12 c₁.regs.rax) :=
    hkept.trans ⟨rfl, rfl, fun r _ hr => Registers.get_set_of_ne _ _ hr⟩
  refine ⟨_, _, Nat.zero_le _,
    hlead.trans (.passed hpassed (.plain rfl (Core.execute?_mov ..) .refl)), ?_, hkept'⟩
  exact h.point inside hrax (hholds.tape.trans h.tape.symm) hkept'

theorem arrives_back (h : Holds base t c) {k : Nat} (hk : k ≤ 128) (inside : k ≤ t.pointer) :
    Arrives L base 0 (.plain (.aluImm .cmp pointerReg (Int32.ofInt k)) :: .branch .below fault ::
      .plain (.aluImm .sub pointerReg (Int32.ofInt k)) :: rest) c rest
      ⟨t.cells, t.pointer - k⟩ := by
  obtain ⟨c₁, hlead, hcarry, hholds, hkept⟩ := leads_probe_back (L := L) h hk
  have hpassed : Cond.holds .below c₁.flags = false := by
    rw [Cond.holds, hcarry, decide_eq_false (by omega)]
  have hr12 : c₁.regs.r12 - signExtend (Int32.ofInt k) = UInt64.ofNat (t.pointer - k) := by
    have hcut : UInt64.ofNat t.pointer = UInt64.ofNat (t.pointer - k) + UInt64.ofNat k := by
      rw [← UInt64.ofNat_add, Nat.sub_add_cancel inside]
    rw [hholds.r12, signExtend_ofNat (by omega), hcut, UInt64.add_sub_cancel]
  have hkept' : Kept c ((c₁.setReg .r12 (c₁.regs.r12 - signExtend (Int32.ofInt k))).setFlags
      (subFlags .word c₁.regs.r12 (signExtend (Int32.ofInt k))).2) :=
    hkept.trans ⟨rfl, rfl, fun r _ hr => Registers.get_set_of_ne _ _ hr⟩
  have hpointer : t.pointer - k < t.capacity := Nat.lt_of_le_of_lt (Nat.sub_le ..) h.onCell
  refine ⟨_, _, Nat.zero_le _,
    hlead.trans (.passed hpassed (.plain rfl (Core.execute?_subImm ..) .refl)), ?_, hkept'⟩
  exact h.point hpointer hr12 (hholds.tape.trans h.tape.symm) hkept'

/-- A move that stays on the tape sets the pointer; any other goes to the stub. -/
theorem arrives_move (h : Holds base t c) (d : Int8) (hbound : L.Bound fault target)
    (rest : List (Item Label)) :
    match t.move? d.toInt64 with
    | some t' => Arrives L base 0 (moveItems d fault ++ rest) c rest t'
    | none => Arrives L base 0 (moveItems d fault ++ rest) c target t := by
  have hpointer : t.pointer < t.capacity := h.onCell
  have hk : d.toInt.natAbs ≤ 128 := by
    have hlow := d.le_toInt
    have hhigh := d.toInt_lt
    omega
  rw [Tape.move?_eq (Nat.le_of_lt h.capacity_lt)]
  unfold moveItems
  split
  next t' hmove =>
    rw [Option.ite_none_right_eq_some, Option.some.injEq] at hmove
    obtain ⟨inside, rfl⟩ := hmove
    split
    next hpositive =>
      have hnext : (t.pointer + d.toInt).toNat = t.pointer + d.toInt.natAbs := by omega
      rw [hnext]
      exact arrives_forward h hk (by omega)
    next =>
      split
      next hnegative =>
        have hnext : (t.pointer + d.toInt).toNat = t.pointer - d.toInt.natAbs := by omega
        rw [hnext]
        exact arrives_back h hk (by omega)
      next =>
        have hnext : (t.pointer + d.toInt).toNat = t.pointer := by omega
        rw [hnext]
        exact ⟨0, c, Nat.zero_le _, .refl, h, .refl c⟩
  next hmove =>
    have outside : ¬(0 ≤ t.pointer + d.toInt ∧ t.pointer + d.toInt < t.capacity) := by
      intro inside
      rw [if_pos inside] at hmove
      cases hmove
    split
    next hpositive =>
      obtain ⟨c₁, hlead, -, hcarry, hholds, hkept⟩ := leads_probe (L := L) h hk
      have htaken : Cond.holds .aboveOrEqual c₁.flags = true := by
        rw [Cond.holds, hcarry, decide_eq_false (by omega)]
        rfl
      exact ⟨_, c₁, Nat.zero_le _, hlead.trans (.taken htaken hbound .refl), hholds, hkept⟩
    next =>
      split
      next hnegative =>
        obtain ⟨c₁, hlead, hcarry, hholds, hkept⟩ := leads_probe_back (L := L) h hk
        have htaken : Cond.holds .below c₁.flags = true := by
          rw [Cond.holds, hcarry, decide_eq_true (by omega)]
        exact ⟨_, c₁, Nat.zero_le _, hlead.trans (.taken htaken hbound .refl), hholds, hkept⟩
      next => omega

end

namespace Compiled

variable {f : Frame} {is : List Instruction} {L : Loaded} {base : UInt64} {t : Tape} {c : Core}
  {index : Nat}

/-! From instruction to instruction. -/

theorem arrives_add (h : Holds base t c) {d : Int8} (hi : is[index]? = some (.add d)) :
    Arrives L base 0 (f.tail is index) c (f.tail is (index + 1)) (t.add d) := by
  obtain ⟨s, -, -, htail⟩ := Frame.exists_placed (f := f) hi
  obtain ⟨n, c', hn, hlead, hholds, hkept⟩ := Native.arrives_add (L := L) h d
  rw [htail]
  exact ⟨n, c', hn, .bind hlead, hholds, hkept⟩

theorem arrives_moved (C : Compiled f is L) (h : Holds base t c) {d : Int8} {t' : Tape}
    (hi : is[index]? = some (.move d)) (hmove : t.move? d.toInt64 = some t') :
    Arrives L base 0 (f.tail is index) c (f.tail is (index + 1)) t' := by
  obtain ⟨s, -, hplaced, htail⟩ := Frame.exists_placed (f := f) hi
  obtain ⟨s', rest, -, hbound⟩ := C.bound_stub (Frame.mem_stubs_of_placed hplaced)
  have harrives := arrives_move h d hbound (f.tail is (index + 1))
  rw [hmove] at harrives
  obtain ⟨n, c', hn, hlead, hholds, hkept⟩ := harrives
  rw [htail, Frame.piece_move]
  exact ⟨n, c', hn, .bind hlead, hholds, hkept⟩

/-- A move that is refused leads to where its index is noted. -/
theorem arrives_refused (C : Compiled f is L) {d : Int8} (hi : is[index]? = some (.move d)) :
    ∃ s rest, s.index = index ∧ ∀ {base t c}, Holds base t c → t.move? d.toInt64 = none →
      Arrives L base 0 (f.tail is index) c ((f.record s).1 ++ .jump f.bounds :: rest) t := by
  obtain ⟨s, hindex, hplaced, htail⟩ := Frame.exists_placed (f := f) hi
  obtain ⟨s', rest, hindex', hbound⟩ := C.bound_stub (Frame.mem_stubs_of_placed hplaced)
  refine ⟨s', rest, hindex'.trans hindex, fun h hmove => ?_⟩
  have harrives := arrives_move h d hbound (f.tail is (index + 1))
  rw [hmove] at harrives
  obtain ⟨n, c', -, hlead, hholds, hkept⟩ := harrives
  rw [htail, Frame.piece_move]
  exact ⟨_, c', Nat.zero_le _, (Leads.bind hlead).trans (.bind .refl), hholds, hkept⟩

theorem target_le (C : Compiled f is L) {i : Instruction} (hi : is[index]? = some i) :
    TargetsWithin f.size i :=
  C.targets i (List.mem_of_getElem? hi)

/-! Around the hooks that read and write. -/

/-- The byte in `rax` goes to the current cell. -/
theorem arrives_store (h : Holds base t c) {b : UInt8} (hrax : c.regs.rax.toUInt8 = b) (done : Label)
    (rest : List (Item Label)) :
    Arrives L base 0 (.plain (.storeByte cell .rax) :: .bind done :: rest) c rest (t.set b) := by
  have hstore : c.memory.store? (c.regs.address cell) (c.regs.get .rax).toUInt8 = _ :=
    h.store?_cell (c.regs.rax.toUInt8)
  refine ⟨1, _, Nat.zero_le _, .plain rfl (Core.execute?_storeByte hstore) (.bind .refl), ?_,
    rfl, rfl, fun _ _ _ => rfl⟩
  rw [hrax]
  exact h.set b c.flags

/-- What the end of the input does for a policy. -/
def endItem (policy : EndOfInput) (done : Label) : Item Label :=
  match policy with
  | .zero => .plain (.xor32 .rax .rax)
  | .unchanged => .jump done
  | .minusOne => .plain (.movImm32 .rax 255)

private theorem inputItems_eq (policy : EndOfInput) (read : List (Item Label)) (eof store done : Label) :
    inputItems policy read eof store done = read ++ [.jump store, .bind eof, endItem policy done,
      .bind store, .plain (.storeByte cell .rax), .bind done] := by
  cases policy <;> rfl

theorem arrives_end (h : Holds base t c) (policy : EndOfInput) {eof store done : Label}
    {rest : List (Item Label)} (hdone : L.Bound done (.bind done :: rest)) :
    Arrives L base 0 (.bind eof :: endItem policy done :: .bind store ::
      .plain (.storeByte cell .rax) :: .bind done :: rest) c rest (Action.receive policy t none) := by
  cases policy with
  | unchanged => exact ⟨1, c, Nat.zero_le _, .bind (.jump hdone (.bind .refl)), h, .refl c⟩
  | zero =>
    have hclear := h.setRax 0 (logicFlags .half 0)
    obtain ⟨n, c', -, hlead, hholds, hkept⟩ :=
      arrives_store (L := L) hclear.1 (b := 0) rfl done rest
    exact ⟨_, c', Nat.zero_le _, .bind (.plain rfl (Core.execute?_clear c .rax) (.bind hlead)), hholds,
      hclear.2.trans hkept⟩
  | minusOne =>
    have hones := h.setRax 255 c.flags
    obtain ⟨n, c', -, hlead, hholds, hkept⟩ :=
      arrives_store (L := L) hones.1 (b := 255) rfl done rest
    exact ⟨_, c', Nat.zero_le _, .bind (.plain rfl (Core.execute?_movImm32 c .rax 255) (.bind hlead)),
      hholds, hones.2.trans hkept⟩

/-- The code of an input: what follows the hook, and where its labels are. -/
theorem tail_input (C : Compiled f is L) (hi : is[index]? = some .input) :
    ∃ s, f.tail is index = .bind (f.address index) ::
        ((f.reading s).1 ++ .jump (s.next + 1) :: .bind s.next :: endItem f.policy (s.next + 2) ::
          .bind (s.next + 1) :: .plain (.storeByte cell .rax) :: .bind (s.next + 2) ::
            f.tail is (index + 1)) ∧
      L.Bound s.next (.bind s.next :: endItem f.policy (s.next + 2) :: .bind (s.next + 1) ::
        .plain (.storeByte cell .rax) :: .bind (s.next + 2) :: f.tail is (index + 1)) ∧
      L.Bound (s.next + 1) (.bind (s.next + 1) :: .plain (.storeByte cell .rax) ::
        .bind (s.next + 2) :: f.tail is (index + 1)) ∧
      L.Bound (s.next + 2) (.bind (s.next + 2) :: f.tail is (index + 1)) := by
  obtain ⟨s, -, -, htail⟩ := Frame.exists_placed (f := f) hi
  obtain ⟨front, hfront⟩ := f.layout_eq_append_tail is index
  rw [Frame.piece_of_ok (Frame.fragment_input C.tidy s), inputItems_eq] at htail
  have hitems := C.items.trans hfront
  rw [htail] at hitems
  refine ⟨s, by simp [htail], ?_⟩
  generalize (f.reading s).1 = read at hitems
  generalize s.next = next at hitems ⊢
  have heof : L.items = (front ++ .bind (f.address index) :: (read ++ [.jump (next + 1)])) ++
      .bind next :: endItem f.policy (next + 2) :: .bind (next + 1) ::
        .plain (.storeByte cell .rax) :: .bind (next + 2) :: f.tail is (index + 1) := by
    simp [hitems]
  have hstore : L.items = (front ++ .bind (f.address index) :: (read ++ [.jump (next + 1),
      .bind next, endItem f.policy (next + 2)])) ++ .bind (next + 1) ::
        .plain (.storeByte cell .rax) :: .bind (next + 2) :: f.tail is (index + 1) := by
    simp [hitems]
  have hdone : L.items = (front ++ .bind (f.address index) :: (read ++ [.jump (next + 1),
      .bind next, endItem f.policy (next + 2), .bind (next + 1), .plain (.storeByte cell .rax)])) ++
        .bind (next + 2) :: f.tail is (index + 1) := by
    simp [hitems]
  exact ⟨C.bound heof, C.bound hstore, C.bound hdone⟩

/-- An input goes to the next instruction with what was read in the cell, or with what the policy asks
for at the end of the input. -/
theorem arrives_input (C : Compiled f is L) (hi : is[index]? = some .input) :
    ∃ (s : Site) (rest target : List (Item Label)),
      f.tail is index = .bind (f.address index) :: ((f.reading s).1 ++ rest) ∧
      L.Bound s.next target ∧
      (∀ {base t c b}, Holds base t c → c.regs.rax.toUInt8 = b →
        Arrives L base 0 rest c (f.tail is (index + 1)) (t.set b)) ∧
      ∀ {base t c}, Holds base t c →
        Arrives L base 0 target c (f.tail is (index + 1)) (Action.receive f.policy t none) := by
  obtain ⟨s, htail, heof, hstore, hdone⟩ := C.tail_input hi
  refine ⟨s, _, _, htail, heof, fun h hrax => ?_, fun h => arrives_end h f.policy hdone⟩
  obtain ⟨n, c', -, hlead, hholds, hkept⟩ :=
    arrives_store (L := L) h hrax (s.next + 2) (f.tail is (index + 1))
  exact ⟨_, c', Nat.zero_le _, .jump hstore (.bind hlead), hholds, hkept⟩

theorem tail_output (C : Compiled f is L) (hi : is[index]? = some .output) :
    ∃ s, f.tail is index = .bind (f.address index) ::
      ((f.writing s).1 ++ f.tail is (index + 1)) := by
  obtain ⟨s, -, -, htail⟩ := Frame.exists_placed (f := f) hi
  rw [Frame.piece_of_ok (Frame.fragment_output C.tidy s)] at htail
  exact ⟨s, htail⟩

/-! A loop end takes at least one step, wherever it goes. -/

theorem arrives_loopOpen (C : Compiled f is L) (h : Holds base t c) {b : UInt8}
    (hb : t.get? = some b) {target : Nat} (hi : is[index]? = some (.loopOpen target)) :
    Arrives L base 1 (f.tail is index) c (f.tail is (if b = 0 then target else index + 1)) t := by
  have htarget : target ≤ f.size := C.target_le hi
  obtain ⟨s, -, -, htail⟩ := Frame.exists_placed (f := f) hi
  have hcond : ∀ flags : Flags, flags.zero = (b == 0) → Cond.holds .equal flags = (b == 0) :=
    fun _ hzero => hzero
  obtain ⟨n, c', hn, hlead, hholds, hkept⟩ := arrives_loopItems h hb hcond (C.bound_address htarget)
    (f.tail is (index + 1))
  rw [htail, Frame.piece_of_ok (Frame.fragment_loopOpen htarget s), apply_ite (f.tail is)]
  exact ⟨n, c', hn, .bind (by simpa using hlead), hholds, hkept⟩

theorem arrives_loopClose (C : Compiled f is L) (h : Holds base t c) {b : UInt8}
    (hb : t.get? = some b) {target : Nat} (hi : is[index]? = some (.loopClose target)) :
    Arrives L base 1 (f.tail is index) c (f.tail is (if b = 0 then index + 1 else target)) t := by
  have htarget : target ≤ f.size := C.target_le hi
  obtain ⟨s, -, -, htail⟩ := Frame.exists_placed (f := f) hi
  have hcond : ∀ flags : Flags, flags.zero = (b == 0) → Cond.holds .notEqual flags = !(b == 0) :=
    fun _ hzero => congrArg (!·) hzero
  obtain ⟨n, c', hn, hlead, hholds, hkept⟩ := arrives_loopItems h hb hcond (C.bound_address htarget)
    (f.tail is (index + 1))
  rw [htail, Frame.piece_of_ok (Frame.fragment_loopClose htarget s), apply_ite (f.tail is)]
  exact ⟨n, c', hn, .bind (by simpa using hlead), hholds, hkept⟩

end Compiled

end TapeLang.Native
