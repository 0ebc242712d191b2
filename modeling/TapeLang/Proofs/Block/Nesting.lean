import TapeLang.Proofs.Block.Simulation
import TapeLang.Proofs.Program.Pairs

/-!
# Programs of blocks

A program is a block laid flat exactly if its loop ends are paired and its loops are nested. The depth
of the block is the largest number of loops around an index.
-/

namespace TapeLang.Block

open Interpreter Program

variable {p : Program} {start i j k l : Nat} {b body rest : Block} {a : Action}

private theorem instruction_ne_open (a : Action) (target : Nat) : a.instruction ≠ .loopOpen target := by
  cases a <;> simp [Action.instruction]

private theorem instruction_ne_close (a : Action) (target : Nat) :
    a.instruction ≠ .loopClose target := by
  cases a <;> simp [Action.instruction]

/-! Pairs of a block laid flat. -/

namespace Laid

private theorem loop_pair (h : Laid p start (.loop body rest)) :
    p.Pair start (start + body.size + 1) :=
  ⟨by omega, h.loop_open, h.loop_close⟩

/-- Where an index of a loop can be: at an end, in the body or behind the loop. -/
theorem place_cases (body : Block) (hi : start ≤ i) :
    i = start ∨ (start + 1 ≤ i ∧ i < start + 1 + body.size) ∨ i = start + body.size + 1 ∨
      start + body.size + 2 ≤ i := by
  omega

/-- An open of a block has its partner in the block. -/
theorem pair_of_open {target : Nat} (h : Laid p start b) (hi : start ≤ i) (hi' : i < start + b.size)
    (opens : p.get? i = some (.loopOpen target)) :
    ∃ j, target = j + 1 ∧ j < start + b.size ∧ p.Pair i j := by
  induction b generalizing start with
  | done =>
    simp only [size] at hi'
    omega
  | act a rest ih =>
    simp only [size] at hi' ⊢
    rcases Nat.eq_or_lt_of_le hi with rfl | hlt
    · exact absurd (Option.some.inj (h.act_head.symm.trans opens)) (instruction_ne_open a target)
    · obtain ⟨j, htarget, hj, pair⟩ := ih h.act_rest hlt (by omega)
      exact ⟨j, htarget, by omega, pair⟩
  | loop body rest ihBody ihRest =>
    simp only [size] at hi' ⊢
    rcases place_cases body hi with rfl | ⟨hlow, hhigh⟩ | rfl | hbehind
    · have htarget := h.loop_open.symm.trans opens
      simp only [Option.some.injEq, Instruction.loopOpen.injEq] at htarget
      exact ⟨i + body.size + 1, by omega, by omega, h.loop_pair⟩
    · obtain ⟨j, htarget, hj, pair⟩ := ihBody h.loop_body hlow hhigh
      exact ⟨j, htarget, by omega, pair⟩
    · simpa using h.loop_close.symm.trans opens
    · obtain ⟨j, htarget, hj, pair⟩ := ihRest h.loop_rest hbehind (by omega)
      exact ⟨j, htarget, by omega, pair⟩

/-- A close of a block has its partner in the block. -/
theorem pair_of_close {target : Nat} (h : Laid p start b) (hj : start ≤ j) (hj' : j < start + b.size)
    (closes : p.get? j = some (.loopClose target)) : ∃ i, target = i + 1 ∧ p.Pair i j := by
  induction b generalizing start with
  | done =>
    simp only [size] at hj'
    omega
  | act a rest ih =>
    simp only [size] at hj'
    rcases Nat.eq_or_lt_of_le hj with rfl | hlt
    · exact absurd (Option.some.inj (h.act_head.symm.trans closes)) (instruction_ne_close a target)
    · exact ih h.act_rest hlt (by omega)
  | loop body rest ihBody ihRest =>
    simp only [size] at hj'
    rcases place_cases body hj with rfl | ⟨hlow, hhigh⟩ | rfl | hbehind
    · simpa using h.loop_open.symm.trans closes
    · exact ihBody h.loop_body hlow hhigh
    · have htarget := h.loop_close.symm.trans closes
      simp only [Option.some.injEq, Instruction.loopClose.injEq] at htarget
      exact ⟨start, htarget.symm, h.loop_pair⟩
    · exact ihRest h.loop_rest hbehind (by omega)

private theorem close_lt (h : Laid p start b) (pair : p.Pair i j) (hi : start ≤ i)
    (hi' : i < start + b.size) : j < start + b.size := by
  obtain ⟨j', -, hj', pair'⟩ := h.pair_of_open hi hi' pair.opens
  exact pair.close_unique pair' ▸ hj'

theorem nested (h : Laid p start b) (pair : p.Pair i j) (pair' : p.Pair k l) (hi : start ≤ i)
    (hj : j < start + b.size) (hik : i < k) (hkj : k < j) : l < j := by
  have before := pair.before
  induction b generalizing start with
  | done =>
    simp only [size] at hj
    omega
  | act a rest ih =>
    simp only [size] at hj
    rcases Nat.eq_or_lt_of_le hi with rfl | hlt
    · exact absurd (Option.some.inj (h.act_head.symm.trans pair.opens)) (instruction_ne_open a _)
    · exact ih h.act_rest hlt (by omega)
  | loop body rest ihBody ihRest =>
    simp only [size] at hj
    rcases place_cases body hi with rfl | ⟨hlow, hhigh⟩ | rfl | hbehind
    · -- The loop itself: what begins in its body ends there.
      obtain rfl := pair.close_unique h.loop_pair
      have := h.loop_body.close_lt pair' hik (by omega)
      omega
    · exact ihBody h.loop_body hlow (h.loop_body.close_lt pair hlow hhigh)
    · exact (h.loop_pair.close_ne_open pair).elim
    · exact ihRest h.loop_rest hbehind (by omega)

end Laid

private theorem lt_size_program {instr : Instruction} (h : b.program.get? i = some instr) :
    i < 0 + b.size := by
  have hlt : i < b.program.size := (Array.getElem?_eq_some_iff.mp h).1
  rwa [size_program, ← Nat.zero_add b.size] at hlt

theorem paired_program (b : Block) : b.program.Paired where
  opens := by
    intro i target hi
    obtain ⟨j, htarget, -, pair⟩ :=
      (laid_program b).pair_of_open (Nat.zero_le i) (lt_size_program hi) hi
    exact ⟨j, htarget, pair⟩
  closes := by
    intro j target hj
    exact (laid_program b).pair_of_close (Nat.zero_le j) (lt_size_program hj) hj

theorem nested_program (b : Block) : b.program.Nested := by
  intro i j k l pair pair'
  exact (laid_program b).nested pair pair' (Nat.zero_le i) (lt_size_program pair.closes)

/-! Depth. -/

/-- The number of loops around an index in a block laid flat. -/
def loopsAt (start : Nat) (b : Block) (k : Nat) : Nat :=
  ((b.flatten start).zipIdx start).countP (Program.contains k)

private theorem loopsAt_act (start k : Nat) (a : Action) (rest : Block) :
    loopsAt start (.act a rest) k = loopsAt (start + 1) rest k := by
  cases a <;> simp [loopsAt, flatten, Action.instruction, Program.contains]

theorem loopsAt_loop (start k : Nat) (body rest : Block) :
    loopsAt start (.loop body rest) k =
      (if start ≤ k ∧ k < start + body.size + 2 then 1 else 0) + loopsAt (start + 1) body k +
        loopsAt (start + body.size + 2) rest k := by
  have hrest : start + 1 + body.size + 1 = start + body.size + 2 := by omega
  simp only [loopsAt, flatten, List.cons_append, List.zipIdx_cons, List.zipIdx_append,
    List.countP_cons, List.countP_append, length_flatten, Program.contains, Bool.and_eq_true,
    decide_eq_true_eq, hrest]
  simp only [Bool.false_eq_true, if_false]
  omega

theorem loopsAt_outside (h : k < start ∨ start + b.size ≤ k) : loopsAt start b k = 0 := by
  induction b generalizing start with
  | done => rfl
  | act a rest ih =>
    simp only [size] at h
    rw [loopsAt_act, ih (by omega)]
  | loop body rest ihBody ihRest =>
    simp only [size] at h
    rw [loopsAt_loop, ihBody (by omega), ihRest (by omega), if_neg (by omega)]

private theorem loopsAt_le_depth (start k : Nat) (b : Block) : loopsAt start b k ≤ b.depth := by
  induction b generalizing start with
  | done => exact Nat.le_refl 0
  | act a rest ih =>
    rw [loopsAt_act]
    exact ih (start + 1)
  | loop body rest ihBody ihRest =>
    rw [loopsAt_loop, depth]
    have hbody := ihBody (start + 1)
    have hrest := ihRest (start + body.size + 2)
    -- Behind the loop nothing of it counts, and up to there nothing of the rest does.
    rcases Nat.lt_or_ge k (start + body.size + 2) with hk | hk
    · rw [loopsAt_outside (.inl hk)]
      split <;> omega
    · rw [loopsAt_outside (b := body) (.inr (by omega)), if_neg (by omega)]
      omega

theorem exists_loopsAt_eq_depth (start : Nat) (b : Block) (h : b.depth ≠ 0) :
    ∃ k, start ≤ k ∧ k < start + b.size ∧ loopsAt start b k = b.depth := by
  induction b generalizing start with
  | done => exact absurd rfl h
  | act a rest ih =>
    obtain ⟨k, hlow, hhigh, hk⟩ := ih (start + 1) h
    exact ⟨k, by omega, by simp only [size]; omega, by rw [loopsAt_act, hk, depth]⟩
  | loop body rest ihBody ihRest =>
    simp only [size, depth]
    rcases Nat.lt_or_ge (body.depth + 1) rest.depth with hdeep | hdeep
    · obtain ⟨k, hlow, hhigh, hk⟩ := ihRest (start + body.size + 2) (by omega)
      refine ⟨k, by omega, by omega, ?_⟩
      rw [loopsAt_loop, loopsAt_outside (b := body) (.inr (by omega)), if_neg (by omega), hk]
      omega
    · by_cases hzero : body.depth = 0
      · refine ⟨start, Nat.le_refl start, by omega, ?_⟩
        rw [loopsAt_loop, loopsAt_outside (b := body) (.inl (by omega)),
          loopsAt_outside (b := rest) (.inl (by omega)), if_pos (by omega)]
        omega
      · obtain ⟨k, hlow, hhigh, hk⟩ := ihBody (start + 1) hzero
        refine ⟨k, by omega, by omega, ?_⟩
        rw [loopsAt_loop, loopsAt_outside (b := rest) (.inl (by omega)), if_pos (by omega), hk]
        omega

/-- A block is as deep as its program: within a limit if every index is. -/
theorem depth_le_iff {limit : Nat} : b.depth ≤ limit ↔ ∀ k, b.program.depthAt k ≤ limit := by
  constructor
  · intro h k
    exact Nat.le_trans (loopsAt_le_depth 0 k b) h
  · intro h
    by_cases hzero : b.depth = 0
    · omega
    · obtain ⟨k, -, -, hk⟩ := exists_loopsAt_eq_depth 0 b hzero
      rw [← hk]
      exact h k

/-! From nested pairs to a block. -/

/-- No pair has one end in the range from `low` up to `high` and the other outside. -/
def Uncut (p : Program) (low high : Nat) : Prop :=
  ∀ i j, p.Pair i j → (low ≤ i ∧ i < high ↔ low ≤ j ∧ j < high)

namespace Uncut

variable {low high : Nat}

theorem whole (p : Program) : Uncut p 0 p.size := by
  intro i j pair
  have before := pair.before
  have hlt := pair.lt_size
  omega

/-- Behind an instruction without a partner. -/
theorem behind (h : Uncut p low high) (hopen : ∀ j, ¬p.Pair low j) (hclose : ∀ i, ¬p.Pair i low) :
    Uncut p (low + 1) high := by
  intro i j pair
  have hall := h i j pair
  have hi : i ≠ low := by
    rintro rfl
    exact hopen j pair
  have hj : j ≠ low := by
    rintro rfl
    exact hclose i pair
  omega

/-- Inside a loop. -/
theorem inside_loop (nested : p.Nested) (pair : p.Pair low j) : Uncut p (low + 1) j := by
  intro i k pair'
  have before := pair'.before
  constructor
  · rintro ⟨hlow, hhigh⟩
    exact ⟨by omega, nested low j i k pair pair' hlow hhigh⟩
  · rintro ⟨hlow, hhigh⟩
    refine ⟨?_, by omega⟩
    -- A loop that began earlier would have to end behind this one.
    rcases Nat.lt_trichotomy i low with hi | rfl | hi
    · have := nested i k low j pair' pair hi (by omega)
      omega
    · have := pair.close_unique pair'
      omega
    · omega

/-- Behind a loop. -/
theorem behind_loop (h : Uncut p low high) (nested : p.Nested) (pair : p.Pair low j) :
    Uncut p (j + 1) high := by
  intro i k pair'
  have before := pair.before
  have before' := pair'.before
  have hall := h i k pair'
  constructor
  · omega
  · rintro ⟨hlow, hhigh⟩
    refine ⟨?_, by omega⟩
    by_contra hi
    rcases Nat.lt_trichotomy i j with hij | rfl | hij
    · rcases Nat.eq_or_lt_of_le (show low ≤ i by omega) with rfl | hlt
      · have := pair.close_unique pair'
        omega
      · have := nested low j i k pair pair' hlt hij
        omega
    · exact pair.close_ne_open pair'
    · omega

end Uncut

/-- A range cut by no pair is a block laid flat. -/
theorem exists_flatten_eq (paired : p.Paired) (nested : p.Nested) {low count : Nat}
    (hsize : low + count ≤ p.size) (uncut : Uncut p low (low + count)) :
    ∃ b : Block, (p.instructions.toList.drop low).take count = b.flatten low ∧ b.size = count := by
  induction count using Nat.strongRecOn generalizing low with
  | ind count ih =>
    cases count with
    | zero => exact ⟨.done, rfl, rfl⟩
    | succ count =>
      have hlow : low < p.instructions.toList.length := by
        rw [Array.length_toList]
        exact Nat.lt_of_lt_of_le (by omega) hsize
      have hfirst : p.get? low = some p.instructions.toList[low] := by
        rw [get?, ← Array.getElem?_toList, List.getElem?_eq_getElem hlow]
      rw [List.drop_eq_getElem_cons hlow, List.take_succ_cons]
      rcases instruction_cases p.instructions.toList[low] with ⟨a, ha⟩ | ⟨target, ht⟩ | ⟨target, ht⟩
      · rw [ha] at hfirst ⊢
        have hopen : ∀ j, ¬p.Pair low j := fun j pair =>
          instruction_ne_open a _ (Option.some.inj (hfirst.symm.trans pair.opens))
        have hclose : ∀ i, ¬p.Pair i low := fun i pair =>
          instruction_ne_close a _ (Option.some.inj (hfirst.symm.trans pair.closes))
        have huncut := uncut.behind hopen hclose
        rw [Nat.add_comm count, ← Nat.add_assoc] at huncut hsize
        obtain ⟨b, hb, rfl⟩ := ih count (Nat.lt_succ_self count) hsize huncut
        exact ⟨.act a b, by rw [hb, flatten], rfl⟩
      · rw [ht] at hfirst ⊢
        obtain ⟨j, rfl, pair⟩ := paired.opens low target hfirst
        have before := pair.before
        have hj := ((uncut low j pair).mp ⟨Nat.le_refl low, by omega⟩).2
        -- The loop is its body up to the close, and what comes behind the close.
        obtain ⟨inner, rfl⟩ : ∃ inner, j = low + 1 + inner := ⟨j - (low + 1), by omega⟩
        obtain ⟨outer, rfl⟩ : ∃ outer, count = inner + (outer + 1) :=
          ⟨count - inner - 1, by omega⟩
        have hend : low + (inner + (outer + 1) + 1) = low + 1 + inner + 1 + outer := by omega
        rw [hend] at uncut hsize
        obtain ⟨body, hbody, rfl⟩ := ih inner (by omega) (by omega) (Uncut.inside_loop nested pair)
        obtain ⟨rest, hrest, rfl⟩ := ih outer (by omega) (by omega) (uncut.behind_loop nested pair)
        have hclose : low + 1 + body.size < p.instructions.toList.length := by
          rw [Array.length_toList]
          exact Nat.lt_of_lt_of_le (by omega) hsize
        have hlast : p.instructions.toList[low + 1 + body.size] = .loopClose (low + 1) := by
          have := pair.closes
          rw [get?, ← Array.getElem?_toList, List.getElem?_eq_getElem hclose] at this
          exact Option.some.inj this
        refine ⟨.loop body rest, ?_, by simp only [size]; omega⟩
        rw [List.take_add, hbody, List.drop_drop, List.drop_eq_getElem_cons hclose,
          List.take_succ_cons, hrest, hlast, flatten]
        rfl
      · rw [ht] at hfirst
        obtain ⟨i, -, pair⟩ := paired.closes low target hfirst
        have before := pair.before
        have := (uncut i low pair).mpr ⟨Nat.le_refl low, by omega⟩
        omega

/-- A program whose loops are paired and nested is that of a block. -/
theorem exists_program_eq (paired : p.Paired) (nested : p.Nested) : ∃ b : Block, p = b.program := by
  have hwhole : Uncut p 0 (0 + p.size) := by
    rw [Nat.zero_add]
    exact Uncut.whole p
  have hlength : p.instructions.toList.length ≤ p.size := Nat.le_of_eq Array.length_toList
  obtain ⟨b, hb, -⟩ := exists_flatten_eq paired nested (Nat.le_of_eq (Nat.zero_add p.size)) hwhole
  rw [List.drop_zero, List.take_of_length_le hlength] at hb
  exact ⟨b, by rw [program, ← hb]⟩

end TapeLang.Block
