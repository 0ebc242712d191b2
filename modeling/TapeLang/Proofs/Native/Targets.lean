import TapeLang.Proofs.Native.HostCalls
import TapeLang.Proofs.Native.SystemCalls
import TapeLang.Proofs.Native.Addresses
import Mathlib.Data.Nat.Find

/-!
# When code generation fails

In the environments of this library, only a loop target behind the end of the program makes code
generation fail, and the first one is reported. An instruction takes at most 70 bytes, with its stub, so
up to thirty million of them have code below 2 GiB and every displacement fits.
-/

namespace TapeLang.Native

open X86 Assembly

/-! How long code can be. -/

/-- The number of bytes of some lines. -/
def lineSizes (lines : List Line) : Nat :=
  (lines.map Listing.lineSize).sum

theorem sizes_of_expand {scope : Scope} {next behind : Nat} {lines : List Line}
    {items : List (Item Label)} (h : Listing.expand scope next lines = .ok (items, behind)) :
    sizes items = lineSizes lines := by
  induction lines generalizing scope next items with
  | nil =>
    obtain ⟨rfl, -⟩ := Prod.mk.inj (Except.ok.inj h)
    rfl
  | cons line rest ih =>
    cases line with
    | label name => simpa [lineSizes, Listing.lineSize] using ih h
    | item i =>
      obtain ⟨item, more, hitem, -, hrest, rfl⟩ := Listing.expand_item_eq_ok h
      rw [sizes_cons, ih hrest, ← size_of_mapLabel? hitem]
      rfl

private theorem sizes_expansion_le (scope : Scope) (next : Nat) (lines : List Line) :
    sizes (expansion scope next lines).1 ≤ lineSizes lines := by
  unfold expansion
  cases h : Listing.expand scope next lines with
  | error b => exact Nat.zero_le _
  | ok r => exact Nat.le_of_eq (sizes_of_expand h)

/-- The hooks of an environment are short. -/
structure Environment.Compact (env : Environment) : Prop where
  prologue : lineSizes env.prologue ≤ 50
  readByte : ∀ s, lineSizes (env.readByte s) ≤ 55
  writeByte : ∀ s, lineSizes (env.writeByte s) ≤ 70
  recordFault : ∀ s, lineSizes (env.recordFault s) ≤ 45
  epilogue : ∀ s, lineSizes (env.epilogue s) ≤ 50

theorem HostCalls.compact : HostCalls.environment.Compact where
  prologue := by decide
  readByte s := by
    change lineSizes (HostCalls.environment.readByte ⟨0, 0, 0⟩) ≤ 55
    decide
  writeByte s := by
    change lineSizes (HostCalls.environment.writeByte ⟨0, 0, 0⟩) ≤ 70
    decide
  recordFault s := by
    change lineSizes (HostCalls.environment.recordFault ⟨0, 0, 0⟩) ≤ 45
    decide
  epilogue s := by
    change lineSizes (HostCalls.environment.epilogue ⟨0, 0, 0⟩) ≤ 50
    decide

theorem SystemCalls.compact (capacity : Nat) : (SystemCalls.environment capacity).Compact where
  prologue := by
    change lineSizes (SystemCalls.environment 0).prologue ≤ 50
    decide
  readByte s := by
    change lineSizes ((SystemCalls.environment 0).readByte ⟨0, 0, 0⟩) ≤ 55
    decide
  writeByte s := by
    change lineSizes ((SystemCalls.environment 0).writeByte ⟨0, 0, 0⟩) ≤ 70
    decide
  recordFault s := by
    change lineSizes [] ≤ 45
    decide
  epilogue s := by
    change lineSizes ((SystemCalls.environment 0).epilogue ⟨0, 0, 0⟩) ≤ 50
    decide

namespace Frame

variable {f : Frame} {is : List Instruction}

private theorem sizes_moveItems_le (delta : Int8) (fault : Label) :
    sizes (moveItems delta fault) ≤ 20 := by
  unfold moveItems
  split
  next =>
    have hlea := length_opMem_le true [0x8D] Reg.rax.code
      { base := pointerReg, disp := Int32.ofInt delta.toInt.natAbs }
    have hrest : sizes [.plain (.cmp .rax capacityReg), .branch .aboveOrEqual fault,
        .plain (.mov pointerReg .rax)] = 12 := rfl
    rw [sizes_cons, hrest]
    simp only [Item.size, Item.template, Instr.encode, List.length_singleton] at hlea ⊢
    omega
  next =>
    split
    next => exact Nat.le_of_ble_eq_true rfl
    next => exact Nat.zero_le _

private theorem sizes_addItems_le (delta : Int8) : sizes (addItems delta) ≤ 10 := by
  unfold addItems
  split
  next => exact Nat.zero_le _
  next => exact Nat.le_of_ble_eq_true rfl

private theorem sizes_inputItems_le (policy : EndOfInput) (read : List (Item Label))
    (eof store done : Label) :
    sizes (inputItems policy read eof store done) ≤ sizes read + 15 := by
  unfold inputItems
  rw [sizes_append]
  cases policy <;> exact Nat.add_le_add_left (Nat.le_of_ble_eq_true rfl) _

private theorem sizes_loopItems (c : Cond) (target : Label) : sizes (loopItems c target) = 11 := rfl

/-- A fragment leaves room for the stub of its instruction. -/
theorem sizes_of_fragment_le (compact : f.environment.Compact) {s : Site} {free : Nat}
    {instr : Instruction} {items : List (Item Label)} (h : fragment f s instr = .ok (items, free)) :
    sizes items ≤ if (stub? ⟨s, instr⟩).isSome then 20 else 70 := by
  cases instr with
  | move delta =>
    obtain ⟨rfl, -⟩ := Prod.mk.inj (Except.ok.inj h)
    exact sizes_moveItems_le delta s.next
  | add delta =>
    obtain ⟨rfl, -⟩ := Prod.mk.inj (Except.ok.inj h)
    have hadd := sizes_addItems_le delta
    show _ ≤ 70
    omega
  | input =>
    obtain ⟨⟨read, free'⟩, hread, hitems⟩ := Except.bind_eq_ok.mp h
    obtain ⟨rfl, -⟩ := Prod.mk.inj (Except.ok.inj hitems)
    have hsize := sizes_of_expand (Refusal.ofBreach_eq_ok.mp hread)
    have hread := compact.readByte { s with next := s.next + 3 }
    have hinput := sizes_inputItems_le f.policy read s.next (s.next + 1) (s.next + 2)
    show _ ≤ 70
    omega
  | output =>
    rw [sizes_of_expand (Refusal.ofBreach_eq_ok.mp h)]
    exact compact.writeByte s
  | loopOpen target =>
    obtain ⟨rfl, -⟩ := Prod.mk.inj (loopFragment_eq_ok.mp h).2
    show sizes (loopItems .equal _) ≤ 70
    rw [sizes_loopItems]
    decide
  | loopClose target =>
    obtain ⟨rfl, -⟩ := Prod.mk.inj (loopFragment_eq_ok.mp h).2
    show sizes (loopItems .notEqual _) ≤ 70
    rw [sizes_loopItems]
    decide

private theorem sizes_piece_le (compact : f.environment.Compact) (p : Placed) :
    sizes (f.piece p).1 ≤ if (stub? p).isSome then 20 else 70 := by
  unfold piece
  cases h : fragment f p.site p.instr with
  | error e => exact Nat.zero_le _
  | ok r => exact sizes_of_fragment_le compact h

private theorem sizes_record_le (compact : f.environment.Compact) (s : Site) :
    sizes (f.record s).1 ≤ 45 :=
  Nat.le_trans (sizes_expansion_le ..) (compact.recordFault s)

/-- Each instruction takes at most 70 bytes, those of its stub included. -/
theorem sizes_fragments_add_stubCode_le (compact : f.environment.Compact) (is : List Instruction)
    (s s' : Site) : sizes (f.fragments (f.placed s is)) +
      sizes (f.stubCode s' ((f.placed s is).filterMap stub?)).1 ≤ 70 * is.length := by
  induction is generalizing s s' with
  | nil => exact Nat.le_refl 0
  | cons i rest ih =>
    have hpiece := sizes_piece_le compact ⟨s, i⟩
    have hfragments : sizes (f.fragments (f.placed s (i :: rest))) =
        sizes (f.piece ⟨s, i⟩).1 + sizes (f.fragments (f.placed (f.following ⟨s, i⟩) rest)) := by
      simp [fragments, placed]
    rw [hfragments, placed, List.filterMap_cons, List.length_cons]
    cases hstub : stub? ⟨s, i⟩ with
    | none =>
      have hrest := ih (f.following ⟨s, i⟩) s'
      simp only [hstub, Option.isSome_none, Bool.false_eq_true, if_false] at hpiece ⊢
      omega
    | some stub =>
      obtain ⟨l, index⟩ := stub
      have hrecord := sizes_record_le compact { s' with index }
      have hrest := ih (f.following ⟨s, i⟩) (s'.past
        (.bind l :: ((f.record { s' with index }).1 ++ [.jump f.bounds])) (f.record { s' with index }).2)
      simp only [hstub, Option.isSome_some, if_true, stubCode, sizes_cons, sizes_append, size_bind,
        Loaded.size_jump] at hpiece ⊢
      omega

private theorem sizes_layout_le (compact : f.environment.Compact) (is : List Instruction) :
    sizes (f.layout is) ≤ 70 * is.length + 105 := by
  have hprologue := Nat.le_trans (sizes_expansion_le [] 0 f.environment.prologue) compact.prologue
  have hbody := sizes_fragments_add_stubCode_le compact is f.start (f.atStubs (f.behind f.start is))
  have hepilogue : sizes (f.leaving (f.atEpilogue is)).1 ≤ 50 :=
    Nat.le_trans (sizes_expansion_le ..) (compact.epilogue _)
  simp only [layout, tail, ending, stubs, atEpilogue, List.drop_zero, sizes_append, sizes_cons,
    size_bind, Loaded.size_jump] at hbody hepilogue ⊢
  omega

end Frame

/-! The first bad target. -/

/-- The first index whose target lies behind the end of the program. -/
structure FirstInvalid (p : Program) (index target : Nat) : Prop where
  holds : ∃ i, p.get? index = some i ∧ i.target? = some target
  outside : p.size < target
  first : ∀ j < index, ∀ i, p.get? j = some i → TargetsWithin p.size i

theorem targetsWithin_iff {size : Nat} {i : Instruction} :
    TargetsWithin size i ↔ ∀ target, i.target? = some target → target ≤ size := by
  cases i <;> simp [TargetsWithin, Instruction.target?]

theorem exists_firstInvalid {p : Program}
    (h : ¬ ∀ i ∈ p.instructions.toList, TargetsWithin p.size i) :
    ∃ index target, FirstInvalid p index target := by
  have hsome : ∃ index, ∃ i, p.get? index = some i ∧ ¬ TargetsWithin p.size i := by
    simp only [not_forall] at h
    obtain ⟨i, hi, houtside⟩ := h
    obtain ⟨index, hindex⟩ := List.mem_iff_getElem?.mp hi
    exact ⟨index, i, by simpa [Program.get?] using hindex, houtside⟩
  classical
  obtain ⟨i, hi, houtside⟩ := Nat.find_spec hsome
  simp only [targetsWithin_iff, not_forall] at houtside
  obtain ⟨target, htarget, hlt⟩ := houtside
  refine ⟨Nat.find hsome, target, ⟨i, hi, htarget⟩, Nat.lt_of_not_le hlt, fun j hj i' hi' => ?_⟩
  by_contra hout
  exact Nat.find_min hsome hj ⟨i', hi', hout⟩

/-- In front of the first bad target all are good. -/
theorem FirstInvalid.split {p : Program} {index target : Nat} (h : FirstInvalid p index target) :
    ∃ front i back, p.instructions.toList = front ++ i :: back ∧ front.length = index ∧
      (∀ j ∈ front, TargetsWithin p.size j) ∧ i.target? = some target := by
  obtain ⟨i, hi, htarget⟩ := h.holds
  have hget : p.instructions.toList[index]? = some i := by simpa [Program.get?] using hi
  obtain ⟨hlt, rfl⟩ := List.getElem?_eq_some_iff.mp hget
  refine ⟨p.instructions.toList.take index, _, p.instructions.toList.drop (index + 1), ?_, ?_,
    fun j hj => ?_, htarget⟩
  · rw [← List.drop_eq_getElem_cons hlt, List.take_append_drop]
  · rw [List.length_take, Nat.min_eq_left (Nat.le_of_lt hlt)]
  · obtain ⟨k, hk⟩ := List.mem_iff_getElem?.mp hj
    rw [List.getElem?_take] at hk
    split at hk
    next hlt => exact h.first k hlt j (by simpa [Program.get?] using hk)
    next => cases hk

namespace Frame

variable {f : Frame} {i : Instruction} {target : Nat}

private theorem fragment_invalid (htarget : i.target? = some target) (h : f.size < target)
    (s : Site) : fragment f s i = .error (.error (.invalidTarget s.index target)) := by
  cases i with
  | loopOpen t =>
    obtain rfl := Option.some.inj htarget
    exact if_neg (Nat.not_le_of_lt h)
  | loopClose t =>
    obtain rfl := Option.some.inj htarget
    exact if_neg (Nat.not_le_of_lt h)
  | _ => cases htarget

/-- Drafting stops at the first bad target. -/
theorem foldlM_addInstruction_invalid {front : List Instruction} {d : Draft} {index : Nat}
    (hframed : f.Framed (f.placed (d.site index) front)) (htarget : i.target? = some target)
    (h : f.size < target) (back : List Instruction) :
    ((front ++ i :: back).zipIdx index).foldlM
        (fun (d : Draft) (x : Instruction × Nat) => d.addInstruction f x.1 x.2) d =
      .error (.error (.invalidTarget (index + front.length) target)) := by
  obtain ⟨d', hfront, -⟩ := foldlM_addInstruction rfl hframed
  rw [List.zipIdx_append, List.foldlM_append, hfront, List.zipIdx_cons]
  simp only [Bind.bind, Except.bind, List.foldlM_cons]
  simp only [Draft.addInstruction, fragment_invalid htarget h, Draft.site, Bind.bind, Except.bind]

end Frame

section

variable {p : Program} {env : Environment} {index target : Nat}

private theorem draft_invalid (tidy : env.Tidy) (h : FirstInvalid p index target) (policy : EndOfInput) :
    draft p env policy = .error (.error (.invalidTarget index target)) := by
  obtain ⟨front, i, back, hsplit, rfl, hfront, htarget⟩ := h.split
  obtain ⟨hprologue, -⟩ := tidy.prologue.expand 0
  generalize hf : Frame.of p env policy = f
  have henv : f.environment = env := by rw [← hf, Frame.of]
  have hsize : f.size = p.size := by rw [← hf, Frame.of]
  have hframed := Frame.framed_of_tidy (f := f) (henv ▸ tidy) (hsize ▸ hfront)
  let d : Draft := ⟨(expansion [] 0 env.prologue).1.toArray, sizes (expansion [] 0 env.prologue).1,
    f.free, #[]⟩
  have hbody := Frame.foldlM_addInstruction_invalid (hframed (d.site 0)) htarget (hsize ▸ h.outside)
    back
  simp only [draft, hprologue, Refusal.ofBreach, Bind.bind, Except.bind]
  rw [show (⟨env, policy, (expansion [] 0 env.prologue).2, p.size⟩ : Frame) = f from hf, hsplit, hbody,
    Nat.zero_add]

theorem generate_invalid (tidy : env.Tidy) (h : FirstInvalid p index target) (policy : EndOfInput) :
    generate p env policy = .error (.error (.invalidTarget index target)) := by
  rw [generate, draft_invalid tidy h policy]
  rfl

theorem targetsWithin_of_generate (tidy : env.Tidy) {policy : EndOfInput} {code : MachineCode}
    (h : generate p env policy = .ok code) : ∀ i ∈ p.instructions.toList, TargetsWithin p.size i := by
  by_contra hout
  obtain ⟨index, target, hfirst⟩ := exists_firstInvalid hout
  rw [generate_invalid tidy hfirst] at h
  cases h

theorem codeSize_le (tidy : env.Tidy) (compact : env.Compact) (small : p.size ≤ 30000000)
    (h : ∀ i ∈ p.instructions.toList, TargetsWithin p.size i) (policy : EndOfInput) :
    codeSize p env policy ≤ 2 ^ 31 := by
  have hlayout := Frame.sizes_layout_le (f := .of p env policy) compact p.instructions.toList
  have hlength : p.instructions.toList.length ≤ 30000000 := small
  rw [codeSize_eq tidy h]
  omega

theorem generate_small (tidy : env.Tidy) (compact : env.Compact) (small : p.size ≤ 30000000)
    (h : ∀ i ∈ p.instructions.toList, TargetsWithin p.size i) (policy : EndOfInput) :
    ∃ code, generate p env policy = .ok code :=
  generate_ok tidy h (codeSize_le tidy compact small h policy)

end

/-! Which addresses are left open. -/

/-- The item does not leave the address of the tape open. -/
def Closed (item : Item Label) : Prop :=
  ∀ dst, item ≠ .tapeAddress dst

private theorem openFields_append (offset : Nat) (xs ys : List (Item Label)) :
    openFields offset (xs ++ ys) = openFields offset xs ++ openFields (offset + sizes xs) ys := by
  induction xs generalizing offset with
  | nil => rfl
  | cons item rest ih =>
    rw [List.cons_append, openFields, ih, openFields, List.append_assoc, sizes_cons, Nat.add_assoc]

private theorem openFields_eq_nil {items : List (Item Label)} (h : ∀ item ∈ items, Closed item)
    (offset : Nat) : openFields offset items = [] := by
  induction items generalizing offset with
  | nil => rfl
  | cons item rest ih =>
    rw [openFields, ih fun item hitem => h item (List.mem_cons_of_mem _ hitem), List.append_nil]
    cases item with
    | tapeAddress dst => exact absurd rfl (h _ List.mem_cons_self dst)
    | _ => rfl

/-- Only the prologue of an environment leaves the address of the tape open. -/
structure Environment.Closed (env : Environment) : Prop where
  readByte : ∀ eof io next s, ∀ item ∈
    (expansion [("eof", eof), ("io_error", io)] next (env.readByte s)).1, Native.Closed item
  writeByte : ∀ io next s, ∀ item ∈ (expansion [("io_error", io)] next (env.writeByte s)).1,
    Native.Closed item
  recordFault : ∀ next s, ∀ item ∈ (expansion [] next (env.recordFault s)).1, Native.Closed item
  epilogue : ∀ ok bounds io next s, ∀ item ∈
    (expansion [("ok", ok), ("bounds", bounds), ("io", io)] next (env.epilogue s)).1,
      Native.Closed item

theorem HostCalls.closed : HostCalls.environment.Closed where
  readByte eof io next s := by
    rw [expansion_of_expand (HostCalls.expand_readByte s eof io next)]
    simp [Native.Closed]
  writeByte io next s := by
    rw [expansion_of_expand (HostCalls.expand_writeByte s io next)]
    simp [Native.Closed]
  recordFault next s := by
    rw [expansion_of_expand (HostCalls.expand_recordFault s next)]
    simp [Native.Closed]
  epilogue ok bounds io next s := by
    rw [expansion_of_expand (HostCalls.expand_epilogue s ok bounds io next)]
    simp [Native.Closed, HostCalls.leaveItems, HostCalls.saved]

theorem SystemCalls.closed (capacity : Nat) : (SystemCalls.environment capacity).Closed where
  readByte eof io next s := by
    rw [expansion_of_expand (SystemCalls.expand_readByte capacity s eof io next)]
    simp [Native.Closed, SystemCalls.transferItems]
  writeByte io next s := by
    rw [expansion_of_expand (SystemCalls.expand_writeByte capacity s io next)]
    simp [Native.Closed, SystemCalls.transferItems]
  recordFault next s := by
    rw [expansion_of_expand (SystemCalls.expand_recordFault capacity s next)]
    simp
  epilogue ok bounds io next s := by
    rw [expansion_of_expand (SystemCalls.expand_epilogue capacity s ok bounds io next)]
    simp [Native.Closed, SystemCalls.exitItems]

namespace Frame

variable {f : Frame} {is : List Instruction}

theorem closed_piece (tidy : f.environment.Tidy) (closed : f.environment.Closed) {p : Placed}
    (h : TargetsWithin f.size p.instr) : ∀ item ∈ (f.piece p).1, Closed item := by
  obtain ⟨s, instr⟩ := p
  cases instr with
  | move delta =>
    simp only [piece_move, moveItems]
    split
    · simp [Closed]
    · split <;> simp [Closed]
  | add delta =>
    simp only [piece_add, addItems]
    split <;> simp [Closed]
  | input =>
    rw [piece_of_ok (fragment_input tidy s)]
    intro item hitem
    rcases List.mem_append.mp hitem with hitem | hitem
    · exact closed.readByte _ _ _ _ item hitem
    · cases hpolicy : f.policy <;> simp [hpolicy, EndOfInput.value?] at hitem <;>
        rcases hitem with rfl | rfl | rfl | rfl | rfl | rfl <;> simp [Closed]
  | output =>
    rw [piece_of_ok (fragment_output tidy s)]
    exact closed.writeByte _ _ s
  | loopOpen target =>
    rw [piece_of_ok (fragment_loopOpen h s)]
    simp [Closed, loopItems]
  | loopClose target =>
    rw [piece_of_ok (fragment_loopClose h s)]
    simp [Closed, loopItems]

/-- Only the prologue of a program leaves the address of the tape open. -/
theorem openFields_layout (tidy : f.environment.Tidy) (closed : f.environment.Closed)
    (h : ∀ i ∈ is, TargetsWithin f.size i) :
    openFields 0 (f.layout is) = openFields 0 (expansion [] 0 f.environment.prologue).1 := by
  have htail : ∀ item ∈ f.tail is 0, Closed item :=
    forall_mem_tail (by simp [Closed]) (by simp [Closed])
      (fun p hp => closed_piece tidy closed (h _ (instr_mem_of_mem_placed hp)))
      (fun s => closed.recordFault s.next s) (fun s => closed.epilogue _ _ _ s.next _) 0
  rw [layout, openFields_append, openFields_eq_nil htail, List.append_nil]

private theorem targetsWithin_of_fragment {s : Site} {i : Instruction} {r : List (Item Label) × Nat}
    (h : fragment f s i = .ok r) : TargetsWithin f.size i := by
  cases i with
  | loopOpen target => exact (loopFragment_eq_ok.mp h).1
  | loopClose target => exact (loopFragment_eq_ok.mp h).1
  | _ => trivial

end Frame

/-- The environments of this library, with where their code leaves the address of the tape open. -/
inductive Provided : Environment → List Nat → Prop where
  | hostCalls : Provided HostCalls.environment []
  | systemCalls (capacity : Nat) : Provided (SystemCalls.environment capacity) [9]

section

variable {p : Program} {env : Environment} {holes : List Nat} {policy : EndOfInput}

theorem Provided.tidy (h : Provided env holes) : env.Tidy := by
  cases h with
  | hostCalls => exact HostCalls.tidy
  | systemCalls capacity => exact SystemCalls.tidy capacity

theorem Provided.compact (h : Provided env holes) : env.Compact := by
  cases h with
  | hostCalls => exact HostCalls.compact
  | systemCalls capacity => exact SystemCalls.compact capacity

theorem Provided.closed (h : Provided env holes) : env.Closed := by
  cases h with
  | hostCalls => exact HostCalls.closed
  | systemCalls capacity => exact SystemCalls.closed capacity

private theorem Provided.openFields_prologue (h : Provided env holes) :
    openFields 0 (expansion [] 0 env.prologue).1 = holes := by
  cases h with
  | hostCalls => rfl
  | systemCalls capacity => rfl

theorem Provided.exists_generate_iff (h : Provided env holes) (small : p.size ≤ 30000000) :
    (∃ code, generate p env policy = .ok code) ↔
      ∀ i ∈ p.instructions.toList, TargetsWithin p.size i := by
  constructor
  · rintro ⟨code, hcode⟩
    exact targetsWithin_of_generate h.tidy hcode
  · intro hwithin
    exact generate_small h.tidy h.compact small hwithin policy

theorem Provided.relocations (h : Provided env holes) {code : MachineCode}
    (hcode : generate p env policy = .ok code) : code.relocations = holes := by
  have hwithin := targetsWithin_of_generate h.tidy hcode
  rw [(codeBytes_of_generate h.tidy hwithin hcode).2.2,
    Frame.openFields_layout (f := .of p env policy) h.tidy h.closed hwithin]
  exact h.openFields_prologue

/-- Up to thirty million instructions, code generation fails only on a target behind the end of the
program, and reports the first one. No instruction it emits breaks a precondition, and the code leaves
exactly the addresses of its environment open. -/
theorem generate_fails_only_on_targets (h : Provided env holes) (small : p.size ≤ 30000000)
    (policy : EndOfInput) :
    ((∃ code, generate p env policy = .ok code) ↔
      ∀ i ∈ p.instructions.toList, TargetsWithin p.size i) ∧
    (∀ e, generate p env policy = .error e ↔ ∃ index target, FirstInvalid p index target ∧
      e = .error (.invalidTarget index target)) ∧
    (∀ code, generate p env policy = .ok code → code.relocations = holes) ∧
    ∀ f s i items free, f.environment = env → fragment f s i = .ok (items, free) →
      ∀ item ∈ items, item.breach? = none := by
  refine ⟨h.exists_generate_iff small, fun e => ⟨fun he => ?_, ?_⟩,
    fun code hcode => h.relocations hcode, ?_⟩
  · have hout : ¬ ∀ i ∈ p.instructions.toList, TargetsWithin p.size i := by
      intro hwithin
      obtain ⟨code, hcode⟩ := (h.exists_generate_iff small).mpr hwithin
      rw [hcode] at he
      cases he
    obtain ⟨index, target, hfirst⟩ := exists_firstInvalid hout
    rw [generate_invalid h.tidy hfirst] at he
    exact ⟨index, target, hfirst, (Except.error.inj he).symm⟩
  · rintro ⟨index, target, hfirst, rfl⟩
    exact generate_invalid h.tidy hfirst policy
  · rintro f s i items free rfl hfragment
    have hpiece := Frame.breach?_piece (p := ⟨s, i⟩) h.tidy
      (Frame.targetsWithin_of_fragment hfragment)
    rwa [Frame.piece_of_ok hfragment] at hpiece

end

/-- Two targets behind the end. -/
def overshooting : Program :=
  ⟨#[.loopOpen 4, .loopClose 9, .input, .loopOpen 5]⟩

theorem generate_fails_only_on_targets_overshooting :
    (Provided (SystemCalls.environment 30000) [9] ∧ overshooting.size ≤ 30000000) ∧
      generate overshooting (SystemCalls.environment 30000) .unchanged =
        .error (.error (.invalidTarget 1 9)) := by
  have hfirst : FirstInvalid overshooting 1 9 := by
    refine ⟨⟨.loopClose 9, rfl, rfl⟩, by decide, fun j hj i hi => ?_⟩
    obtain rfl : j = 0 := by omega
    obtain rfl := Option.some.inj hi
    decide
  have hprovided := Provided.systemCalls 30000
  have hsmall : overshooting.size ≤ 30000000 := by decide
  obtain ⟨-, herror, -⟩ := generate_fails_only_on_targets hprovided hsmall .unchanged
  exact ⟨⟨hprovided, hsmall⟩, (herror _).mpr ⟨1, 9, hfirst, rfl⟩⟩

end TapeLang.Native
