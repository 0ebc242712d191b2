import TapeLang.Proofs.Native.Contract

/-!
# Accesses to the tape

Compiled code reaches the cells through one operand, `[rbx + r12]`. It does so only behind its prologue
and in front of its last instructions, where the pointer is on the tape: no access leaves a tape that
has a cell. A tape without cells is not looked at before the first access, which is outside of it.
-/

namespace TapeLang

open X86 Assembly Transition Relation

namespace Tape

/-- Tapes as they come about: made, used through their operations, or lent out to have their cells
overwritten. No byte string is longer than half the address space. -/
inductive Built : Tape → Prop where
  | new {n : Nat} (size : n < 2 ^ 63) : Built (.new n)
  | allocated {grants : Nat → Bool} {n : Nat} {t : Tape} (made : allocate? grants n = some t) : Built t
  | moved {t u : Tape} {d : Int64} (before : Built t) (step : t.move? d = some u) : Built u
  | added {t u : Tape} {d : Int8} (before : Built t) (step : t.add? d = some u) : Built u
  | stored {t u : Tape} {b : UInt8} (before : Built t) (step : t.set? b = some u) : Built u
  | reset {t : Tape} (before : Built t) : Built t.reset
  | pointed {t u : Tape} {p : Nat} (before : Built t) (step : t.setPointer? p = some u) : Built u
  | overwritten {t : Tape} {cells : Array UInt8} (before : Built t) (same : cells.size = t.capacity) :
      Built { t with cells }

private theorem onCell_new {n : Nat} (h : 0 < n) : (new n).OnCell := by
  rw [OnCell, capacity_new]
  exact h

/-- A tape that has a cell has its pointer on one. -/
theorem Built.onCell {t : Tape} (h : t.Built) : t.capacity < 2 ^ 63 ∧ (0 < t.capacity → t.OnCell) := by
  induction h with
  | @new n size =>
    rw [capacity_new]
    exact ⟨size, onCell_new⟩
  | @allocated grants n t made =>
    unfold allocate? at made
    split at made
    next hn =>
      obtain rfl := Option.some.inj made
      rw [capacity_new]
      exact ⟨hn.1, onCell_new⟩
    next => cases made
  | moved _ step ih =>
    obtain ⟨hcells, onCell⟩ := move?_eq_some step
    rw [capacity, hcells]
    exact ⟨ih.1, fun _ => onCell⟩
  | @added t u d _ step ih =>
    unfold add? at step
    split at step
    next onCell =>
      obtain rfl := Option.some.inj step
      rw [capacity_add]
      exact ⟨ih.1, fun _ => OnCell.add onCell d⟩
    next => cases step
  | @stored t u b _ step ih =>
    unfold set? at step
    split at step
    next onCell =>
      obtain rfl := Option.some.inj step
      rw [capacity_set]
      exact ⟨ih.1, fun _ => OnCell.set onCell b⟩
    next => cases step
  | @reset t _ ih =>
    rw [capacity_reset]
    exact ⟨ih.1, onCell_new⟩
  | @pointed t u p _ step ih =>
    unfold setPointer? at step
    split at step
    next onCell =>
      obtain rfl := Option.some.inj step
      exact ⟨ih.1, fun _ => onCell⟩
    next => cases step
  | @overwritten t cells _ same ih =>
    rw [OnCell, capacity, same]
    exact ih

end Tape

namespace Assembly

variable {bound : Array (Option Nat)} {address : UInt64} {items : List (Item Label)} {i : Instr}

/-- What a sweep over assembled code reads was resolved from an item at the same offset. -/
theorem exists_item_of_sweep {offset fuel stop : Nat} {bytes : Bytes}
    {before behind : List (Instr × Nat)} (hbreach : ∀ item ∈ items, item.breach? = none)
    (hbytes : codeBytes bound address offset items = .ok bytes) (hfuel : bytes.length ≤ fuel)
    (h : sweep fuel offset bytes = some (before ++ (i, stop) :: behind)) :
    ∃ front item rest, items = front ++ item :: rest ∧ endOf offset before = offset + sizes front ∧
      item.resolve bound address (offset + sizes front) = .ok (some i) := by
  induction items generalizing offset fuel bytes before with
  | nil =>
    obtain rfl := Except.ok.inj hbytes
    simp [sweep] at h
  | cons item items ih =>
    rw [List.forall_mem_cons] at hbreach
    obtain ⟨i?, hi, hrest⟩ := Except.bind_eq_ok.mp hbytes
    obtain ⟨more, hmore, rfl⟩ := Except.map_eq_ok.mp hrest
    obtain ⟨fuel', hfuel', hsweep⟩ :=
      sweep_encodeOption (breach?_of_resolve hbreach.1 hi) offset hfuel
    have hsize := length_encodeOption hi
    rw [hsweep, hsize] at h
    obtain ⟨listed, hlisted, hcut⟩ := Option.map_eq_some_iff.mp h
    -- An item behind this one is found in the rest of the sweep.
    have further : ∀ {before'}, listed = before' ++ (i, stop) :: behind →
        endOf offset before = endOf (offset + item.size) before' →
        ∃ front item' rest, item :: items = front ++ item' :: rest ∧
          endOf offset before = offset + sizes front ∧
          item'.resolve bound address (offset + sizes front) = .ok (some i) := by
      rintro before' rfl hend
      obtain ⟨front, item', rest, rfl, hfront, hresolve⟩ := ih hbreach.2 hmore hfuel' hlisted
      refine ⟨item :: front, item', rest, rfl, ?_, ?_⟩
      · rw [hend, hfront, sizes_cons, Nat.add_assoc]
      · rw [sizes_cons, ← Nat.add_assoc]
        exact hresolve
    cases i? with
    | none =>
      have hzero : item.size = 0 := hsize.symm
      exact further hcut (by rw [hzero]; rfl)
    | some j =>
      cases before with
      | nil =>
        obtain ⟨hhead, -⟩ := List.cons.inj hcut
        obtain ⟨rfl, -⟩ := Prod.mk.inj hhead
        exact ⟨[], item, items, rfl, rfl, hi⟩
      | cons first before' =>
        obtain ⟨rfl, htail⟩ := List.cons.inj hcut
        exact further htail rfl

/-- Only plain items have operands in memory. -/
theorem eq_plain_of_resolve {item : Item Label} {offset : Nat} {a : Mem} (hmem : i.mem? = some a)
    (h : item.resolve bound address offset = .ok (some i)) : item = .plain i := by
  cases item with
  | bind l => cases h
  | plain j => rw [Option.some.inj (Except.ok.inj h)]
  | tapeAddress dst =>
    obtain rfl := Option.some.inj (Except.ok.inj h)
    cases hmem
  | jump l =>
    obtain ⟨rel, -, hi⟩ := Except.map_eq_ok.mp h
    obtain rfl := Option.some.inj hi
    cases hmem
  | branch c l =>
    obtain ⟨rel, -, hi⟩ := Except.map_eq_ok.mp h
    obtain rfl := Option.some.inj hi
    cases hmem

/-- An instruction with an operand in memory is listed where an item holds it. -/
theorem Loaded.exists_at_of_listed {L : Loaded} {offset size : Nat} {a : Mem} (hmem : i.mem? = some a)
    (h : Listed L.text offset i size) :
    ∃ front rest, L.items = front ++ .plain i :: rest ∧ sizes front = offset := by
  obtain ⟨before, behind, hsweep, hend⟩ := h
  obtain ⟨front, item, rest, hitems, hfront, hresolve⟩ :=
    exists_item_of_sweep L.encodable L.assembled (Nat.le_refl _) hsweep
  obtain rfl := eq_plain_of_resolve hmem hresolve
  exact ⟨front, rest, hitems, by omega⟩

end Assembly

namespace Native

open HostCalls

/-- The machine is at an instruction whose operand is the current cell. -/
def AtCell (m : Machine) : Prop :=
  ∃ i size, m.memory.code.fetch? m.rip = some (i, size) ∧ i.mem? = some cell

/-- The prologue and the last instructions leave the cells alone. -/
theorem not_mem_of_cell {i : Instr} (hcell : i.mem? = some cell) :
    .plain i ∉ (expansion [] 0 HostCalls.environment.prologue).1 ∧ .plain i ∉ restoreItems := by
  rw [expansion_of_expand (expand_prologue 0)]
  constructor
  · intro h
    simp only [saved, List.map_cons, List.map_nil, List.cons_append, List.nil_append, List.mem_cons,
      List.not_mem_nil, or_false, Item.plain.injEq] at h
    rcases h with rfl | rfl | rfl | rfl | rfl | rfl | rfl | rfl | rfl <;> exact absurd hcell (by decide)
  · intro h
    simp only [restoreItems, saved, List.reverse_cons, List.reverse_nil, List.nil_append,
      List.cons_append, List.map_cons, List.map_nil, List.mem_cons, List.not_mem_nil, or_false,
      Item.plain.injEq] at h
    rcases h with rfl | rfl | rfl | rfl | rfl | rfl <;> exact absurd hcell (by decide)

namespace Visit

variable {K : Visit} {m : Machine}

private theorem code_of_moves (h : ReflTransGen K.place.Moves K.entry m) :
    m.memory.code = K.loaded.code := by
  induction h with
  | refl => exact K.enters.code.trans K.placed.symm
  | tail _ move ih =>
    cases move with
    | code step => exact (Machine.code_next? (Machine.next?_eq_some.mpr step)).trans ih
    | callback _ returns => exact returns.code.trans ih

/-- An item with the current cell as its operand is neither in the prologue nor at the end. -/
theorem within_of_cell {front rest : List (Item Label)} {i : Instr}
    (hitems : K.loaded.items = front ++ .plain i :: rest) (hcell : i.mem? = some cell) :
    K.Within (.plain i :: rest) := by
  obtain ⟨hprologue, hrestore⟩ := not_mem_of_cell hcell
  constructor
  · have hlayout : (expansion [] 0 HostCalls.environment.prologue).1 ++ K.tail 0 =
        front ++ .plain i :: rest := by
      rw [← hitems, K.compiled.items, Frame.layout, K.environment]
    rcases List.append_eq_append_iff.mp hlayout with ⟨middle, -, htail⟩ | ⟨middle, hfront, hrest⟩
    · rw [htail, sizes_append]
      omega
    · cases middle with
      | nil => rw [hrest, List.nil_append]
      | cons first middle =>
        obtain ⟨rfl, -⟩ := List.cons.inj hrest
        exact absurd (by rw [hfront]; simp) hprologue
  · obtain ⟨before, next, hexits⟩ := items_exits K.compiled K.environment
    obtain ⟨before, hend⟩ : restoreItems <:+ K.loaded.items := by
      rw [hexits]
      exact .trans ⟨[_, _, _, _, _, _, _, _, _, _], rfl⟩ (List.suffix_append ..)
    rcases List.append_eq_append_iff.mp (hitems.symm.trans hend.symm) with
      ⟨middle, -, hrest⟩ | ⟨middle, -, hrestored⟩
    · rw [hrest, sizes_append]
      omega
    · exact absurd (by rw [hrestored]; simp) hrestore

/-- Wherever the current cell is an operand, registers are kept. -/
theorem keeps_of_atCell (h : ReflTransGen K.place.Moves K.entry m) (hcell : AtCell m) :
    Keeps K.place K.capacity m.regs := by
  obtain ⟨i, size, hfetch, hmem⟩ := hcell
  have hgood := K.good_of_moves h
  rcases hgood.boundary with hhost | ⟨start, j, size', -, hlisted, hrip, hfetch', -⟩
  · rw [code_of_moves h, fetch?_of_isHost hhost] at hfetch
    cases hfetch
  · obtain ⟨rfl, rfl⟩ := Prod.mk.inj (Option.some.inj (hfetch.symm.trans hfetch'))
    rw [← K.text] at hlisted
    obtain ⟨front, rest, hitems, rfl⟩ := Loaded.exists_at_of_listed hmem hlisted
    have hat : K.loaded.At (.plain i :: rest) m.rip := ⟨front, hitems, by rw [hrip, K.origin_eq]⟩
    have hoffset : K.place.offset m + sizes (.plain i :: rest) = K.code.bytes.length :=
      offset_of_at (c := m.core) hat
    obtain ⟨hle, hge⟩ := within_of_cell hitems hmem
    have hlength := K.length_eq
    exact hgood.body _ K.first (by omega) (by omega)

end Visit

section

variable {p : Program} {policy : EndOfInput} {c : CompiledProgram} {host : Host} {tape : Tape}

/-- A program that begins with an addition gets to the current cell on every tape, empty ones included. -/
theorem exists_atCell_of_add (hcompile : CompiledProgram.compile p policy = .ok c) {d : Int8}
    (hfirst : p.instructions.toList[0]? = some (.add d)) (hd : d ≠ 0)
    (conforms : host.Conforms c.code tape) (input : Input) (output : Output) :
    ∃ n s, Reaches (Invocation.next? host) n { machine := host.enter c.code tape, input, output } s ∧
      AtCell s.machine := by
  obtain ⟨code, hgenerate, hc⟩ := Except.bind_eq_ok.mp hcompile
  obtain rfl := Except.ok.inj hc
  have targets := targetsWithin_of_generate HostCalls.tidy hgenerate
  obtain ⟨core, rip, hreach, htail, hcode, -⟩ :=
    Call.ofProgram_prologue targets hgenerate conforms input output
  obtain ⟨s, -, -, hitems⟩ := Frame.exists_placed (f := .of p HostCalls.environment policy) hfirst
  rw [hitems, Frame.piece_add, addItems, if_neg hd] at htail
  exact ⟨9, _, hreach, _, _, htail.next_bind.fetch_plain hcode, rfl⟩

/-- During a call on a tape that has a cell, each access to the current cell is on the tape: whatever
the program and the channels do, whatever registers, flags and the stack held when the host called the
code, and whatever callbacks leave where the platform lets them. -/
theorem cell_access_inside {place : Placement} {fault : UInt64} {entry m : Machine}
    (hcompile : CompiledProgram.compile p policy = .ok c) (built : tape.Built)
    (hcells : 0 < tape.capacity) (sound : place.Sound c.code.bytes.length tape.capacity)
    (enters : place.Enters c.code tape.capacity tape.pointer fault entry)
    (reachable : ReflTransGen place.Moves entry m) (hcell : AtCell m) :
    m.regs.address cell = place.tape + m.regs.r12 ∧ m.regs.r12.toNat < tape.cells.size := by
  obtain ⟨code, hgenerate, hc⟩ := Except.bind_eq_ok.mp hcompile
  obtain rfl := Except.ok.inj hc
  obtain ⟨K, rfl, rfl, hK, -, rfl⟩ := exists_visit hgenerate sound (built.onCell.2 hcells) enters
  have hkeeps := K.keeps_of_atCell reachable hcell
  have haddress : m.regs.address cell = m.regs.rbx + m.regs.r12 + 0 := rfl
  refine ⟨by rw [haddress, hkeeps.rbx, UInt64.add_zero], ?_⟩
  have hlt := UInt64.lt_iff_toNat_lt.mp hkeeps.r12
  rw [hkeeps.r13, UInt64.toNat_ofNat_of_lt' K.capacity_lt, hK] at hlt
  exact hlt

end

/-- The pointer is on the last of three cells. -/
theorem cell_access_inside_last :
    Tape.Built ⟨#[0, 0, 0], 2⟩ ∧
      ∃ c m, CompiledProgram.compile ⟨#[.add 1, .move 1, .loopClose 0]⟩ .zero = .ok c ∧
        untidyHost.Conforms c.code ⟨#[0, 0, 0], 2⟩ ∧
        ReflTransGen untidyHost.place.Moves (untidyHost.enter c.code ⟨#[0, 0, 0], 2⟩) m ∧ AtCell m ∧
        m.regs.address cell = untidyHost.place.tape + m.regs.r12 ∧ m.regs.r12.toNat < 3 := by
  have built : Tape.Built ⟨#[0, 0, 0], 2⟩ := .moved (d := 2) (.new (n := 3) (by decide)) (by decide)
  have small := codeSize_le (p := ⟨#[.add 1, .move 1, .loopClose 0]⟩) HostCalls.tidy HostCalls.compact
    (by decide) (by decide) .zero
  obtain ⟨code, hgenerate⟩ := generate_ok HostCalls.tidy (by decide) small
  rw [← length_bytes_of_generate HostCalls.tidy (by decide) hgenerate] at small
  have conforms : untidyHost.Conforms code ⟨#[0, 0, 0], 2⟩ :=
    untidyHost_conforms small (by decide) (by decide)
  have hcompile := CompiledProgram.compile_eq hgenerate
  obtain ⟨n, s, hreach, hcell⟩ := exists_atCell_of_add hcompile rfl (by decide) conforms {} {}
  have hmoves := Invocation.moves_of_reaches conforms.answers hreach
  exact ⟨built, _, s.machine, hcompile, conforms, hmoves, hcell, cell_access_inside hcompile built
    (by decide) conforms.sound conforms.enters hmoves hcell⟩

/-- On a tape without cells the first access is at index zero, which is outside, and there the call
crashes. -/
theorem cell_access_outside_empty :
    (Tape.new 0).Built ∧
      ∃ c, CompiledProgram.compile ⟨#[.add 1]⟩ .zero = .ok c ∧
        (Host.plain { stackSize := 56 } fun _ => {}).Conforms c.code (.new 0) ∧
        (∃ m, ReflTransGen (Placement.Moves { stackSize := 56 })
            (Placement.enter { stackSize := 56 } c.code (.new 0)) m ∧
          AtCell m ∧ ¬ m.regs.r12.toNat < (Tape.new 0).cells.size) ∧
        c.invoke (.plain { stackSize := 56 } fun _ => {}) 10 (.new 0) {} {} = some .crashed := by
  have hcrash : (CompiledProgram.compile ⟨#[.add 1]⟩ .zero).toOption.bind
      (fun c => c.invoke (.plain { stackSize := 56 } fun _ => {}) 10 (.new 0) {} {}) =
        some .crashed := by
    decide +kernel
  cases hcompile : CompiledProgram.compile ⟨#[.add 1]⟩ .zero with
  | error r => simp [hcompile, Except.toOption] at hcrash
  | ok c =>
    rw [hcompile] at hcrash
    have small := codeSize_le (p := ⟨#[.add 1]⟩) HostCalls.tidy HostCalls.compact (by decide) (by decide)
      .zero
    obtain ⟨code, hgenerate, hc⟩ := Except.bind_eq_ok.mp hcompile
    obtain rfl := Except.ok.inj hc
    rw [← length_bytes_of_generate HostCalls.tidy (by decide) hgenerate] at small
    have sound : Placement.Sound { stackSize := 56 } code.bytes.length (Tape.new 0).capacity := {
      tape_context := .of_le (by decide) (by decide)
      tape_stack := .of_le (by decide) (by decide)
      context_stack := .of_le (by decide) (by decide)
      room := by decide
      readEntry := Nat.le_trans small (by decide)
      writeEntry := Nat.le_trans small (by decide)
      caller := Nat.le_trans small (by decide)
      read_ne_caller := by decide
      write_ne_caller := by decide
      write_ne_read := by decide }
    have conforms : (Host.plain { stackSize := 56 } fun _ => {}).Conforms code (Tape.new 0) :=
      Host.conforms_plain sound (by decide) _
    obtain ⟨n, s, hreach, hcell⟩ := exists_atCell_of_add hcompile rfl (by decide) conforms {} {}
    have hmoves := Invocation.moves_of_reaches conforms.answers hreach
    exact ⟨.new (by decide), _, rfl, conforms, ⟨s.machine, hmoves, hcell, Nat.not_lt_zero _⟩, hcrash⟩

end Native

end TapeLang
