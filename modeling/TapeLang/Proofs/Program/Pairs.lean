import TapeLang.Program
import Mathlib.Tactic.Common

/-!
# Pairs of loop ends

The targets of a program pair its opens with its closes. Taking partners in order decides whether all
of them are paired: the array of taken closes marks the partners of the opens passed so far.
-/

namespace TapeLang.Program

variable {p : Program} {i j k l : Nat}

/-- The open at `i` and the close at `j` point just behind each other. -/
structure Pair (p : Program) (i j : Nat) : Prop where
  before : i < j
  opens : p.get? i = some (.loopOpen (j + 1))
  closes : p.get? j = some (.loopClose (i + 1))

/-- Every open and every close belongs to a pair. -/
structure Paired (p : Program) : Prop where
  opens : ∀ i target, p.get? i = some (.loopOpen target) → ∃ j, target = j + 1 ∧ p.Pair i j
  closes : ∀ j target, p.get? j = some (.loopClose target) → ∃ i, target = i + 1 ∧ p.Pair i j

/-- A loop that begins inside another one ends inside it. -/
def Nested (p : Program) : Prop :=
  ∀ i j k l, p.Pair i j → p.Pair k l → i < k → k < j → l < j

/-- Whether the loop of an open at some index contains the index `k`. Its target is the first index
behind it. -/
def contains (k : Nat) : Instruction × Nat → Bool
  | (.loopOpen target, i) => i ≤ k && k < target
  | _ => false

/-- The number of loops that contain an index. -/
def depthAt (p : Program) (k : Nat) : Nat :=
  p.instructions.toList.zipIdx.countP (contains k)

namespace Pair

theorem lt_size (h : p.Pair i j) : j < p.size :=
  (Array.getElem?_eq_some_iff.mp h.closes).1

theorem close_unique (h : p.Pair i j) (h' : p.Pair i l) : j = l := by
  simpa using h.opens.symm.trans h'.opens

theorem open_unique (h : p.Pair i j) (h' : p.Pair k j) : i = k := by
  simpa using h.closes.symm.trans h'.closes

theorem close_ne_open (h : p.Pair i j) (h' : p.Pair j l) : False := by
  simpa using h.closes.symm.trans h'.opens

end Pair

/-- The closes taken are the partners of the opens before `i`. -/
structure Taken (p : Program) (i : Nat) (claimed : Array Bool) : Prop where
  size : claimed.size = p.size
  marks : ∀ j, claimed[j]? = some true ↔ ∃ k, k < i ∧ p.Pair k j

namespace Taken

variable {claimed : Array Bool}

theorem start (p : Program) : p.Taken 0 (Array.replicate p.size false) where
  size := Array.size_replicate
  marks := by simp [Array.getElem?_replicate]

/-- A partner is not taken before its open comes: a close points to one open only. -/
theorem free (h : p.Taken i claimed) (pair : p.Pair i j) : claimed.getD j true = false := by
  have hlt : j < claimed.size := h.size ▸ pair.lt_size
  have hfree : claimed[j]? ≠ some true := by
    intro taken
    obtain ⟨k, hk, pair'⟩ := (h.marks j).mp taken
    have := pair.open_unique pair'
    omega
  rw [Array.getElem?_eq_getElem hlt] at hfree
  rw [Array.getD_eq_getD_getElem?, Array.getElem?_eq_getElem hlt, Option.getD_some]
  simpa using hfree

/-- An open takes its partner. -/
theorem take (h : p.Taken i claimed) (pair : p.Pair i j) :
    p.Taken (i + 1) (claimed.setIfInBounds j true) where
  size := by rw [Array.size_setIfInBounds, h.size]
  marks := by
    intro j'
    by_cases hj : j = j'
    · subst hj
      have hlt : j < claimed.size := h.size ▸ pair.lt_size
      have hset : (claimed.setIfInBounds j true)[j]? = some true := by simp [hlt]
      exact iff_of_true hset ⟨i, Nat.lt_succ_self i, pair⟩
    · rw [Array.getElem?_setIfInBounds_ne hj, h.marks]
      constructor
      · rintro ⟨k, hk, pair'⟩
        exact ⟨k, by omega, pair'⟩
      · rintro ⟨k, hk, pair'⟩
        rcases Nat.lt_succ_iff_lt_or_eq.mp hk with hlt | rfl
        · exact ⟨k, hlt, pair'⟩
        · exact absurd (pair.close_unique pair') hj

/-- Nothing else takes one. -/
theorem pass (h : p.Taken i claimed) (hi : ∀ target, p.get? i ≠ some (.loopOpen target)) :
    p.Taken (i + 1) claimed where
  size := h.size
  marks := by
    intro j
    rw [h.marks]
    constructor
    · rintro ⟨k, hk, pair⟩
      exact ⟨k, by omega, pair⟩
    · rintro ⟨k, hk, pair⟩
      rcases Nat.lt_succ_iff_lt_or_eq.mp hk with hlt | rfl
      · exact ⟨k, hlt, pair⟩
      · exact absurd pair.opens (hi _)

end Taken

section

variable {claimed taken final : Array Bool} {rest : List Instruction} {instr : Instruction} {target : Nat}

theorem takePartner_of_pair (h : p.Taken i claimed) (pair : p.Pair i j) :
    p.takePartner i (j + 1) claimed = .ok (some (claimed.setIfInBounds j true)) := by
  have before := pair.before
  have hlt : j < claimed.size := h.size ▸ pair.lt_size
  have hrange : ¬(j + 1 = 0 ∨ j ≤ i ∨ p.size ≤ j) := by
    have hsize := pair.lt_size
    omega
  have hfree : claimed[j]? = some false := by
    rw [Array.getElem?_eq_getElem hlt, ← h.free pair, Array.getD_eq_getD_getElem?,
      Array.getElem?_eq_getElem hlt, Option.getD_some]
  have hclose : entryAt p.instructions j = .ok (.loopClose (i + 1)) := entryAt_of_getElem? pair.closes
  simp only [takePartner, Nat.add_sub_cancel, if_neg hrange, entryAt_of_getElem? hfree, hclose,
    replaceAt_of_lt hlt, Bind.bind, Except.bind, Bool.false_eq_true, if_false, if_true, pure, Except.pure]

/-- Only an open with a partner behind it takes one. -/
theorem pair_of_takePartner (hi : p.get? i = some (.loopOpen target))
    (h : p.takePartner i target claimed = .ok (some taken)) : ∃ j, target = j + 1 ∧ p.Pair i j := by
  simp only [takePartner] at h
  split at h
  next => cases h
  next hrange =>
    have htarget : target = target - 1 + 1 := by omega
    obtain ⟨mark, -, h⟩ := Except.bind_eq_ok.mp h
    split at h
    next => cases h
    next =>
      obtain ⟨other, hother, h⟩ := Except.bind_eq_ok.mp h
      split at h
      next back =>
        split at h
        next hpoints =>
          subst hpoints
          refine ⟨target - 1, htarget, by omega, by rwa [← htarget], ?_⟩
          exact getElem?_of_entryAt hother
        next => cases h
      next => cases h

/-- The entries looked up are all there, and the marks stay as many. -/
theorem exists_takePartner (h : claimed.size = p.size) (i target : Nat) :
    ∃ r, p.takePartner i target claimed = .ok r ∧ ∀ taken ∈ r, taken.size = p.size := by
  simp only [takePartner]
  split
  next => exact ⟨none, rfl, nofun⟩
  next hrange =>
    have hlt : target - 1 < p.size := by omega
    have hmark := entryAt_of_getElem? (Array.getElem?_eq_getElem (h ▸ hlt : target - 1 < claimed.size))
    have hinstr := entryAt_of_getElem? (Array.getElem?_eq_getElem (hlt : target - 1 < p.instructions.size))
    simp only [hmark, hinstr, Bind.bind, Except.bind]
    split
    next => exact ⟨none, rfl, nofun⟩
    next =>
      split
      next =>
        split
        next =>
          rw [replaceAt_of_lt (h ▸ hlt)]
          refine ⟨_, rfl, ?_⟩
          rintro _ ⟨⟩
          rw [Array.size_setIfInBounds, h]
        next => exact ⟨none, rfl, nofun⟩
      next => exact ⟨none, rfl, nofun⟩

private theorem claimPartners_of_ne (hne : ∀ target, instr ≠ .loopOpen target) :
    claimPartners p (instr :: rest) i claimed = claimPartners p rest (i + 1) claimed := by
  cases instr with
  | loopOpen target => exact absurd rfl (hne target)
  | move d => rfl
  | add d => rfl
  | input => rfl
  | output => rfl
  | loopClose target => rfl

private theorem claimPartners_open_eq_some
    (h : claimPartners p (.loopOpen target :: rest) i claimed = .ok (some final)) :
    ∃ taken, p.takePartner i target claimed = .ok (some taken) ∧
      claimPartners p rest (i + 1) taken = .ok (some final) := by
  obtain ⟨r, hr, h⟩ := Except.bind_eq_ok.mp h
  cases r with
  | none => cases h
  | some taken => exact ⟨taken, hr, h⟩

private theorem claimPartners_open (h : p.takePartner i target claimed = .ok (some taken)) :
    claimPartners p (.loopOpen target :: rest) i claimed = claimPartners p rest (i + 1) taken := by
  simp only [claimPartners, h, Bind.bind, Except.bind]

/-- Passing all opens looks up no entry that is not there. -/
theorem exists_claimPartners (h : claimed.size = p.size) (rest : List Instruction) (i : Nat) :
    ∃ r, claimPartners p rest i claimed = .ok r := by
  induction rest generalizing i claimed with
  | nil => exact ⟨some claimed, rfl⟩
  | cons instr rest ih =>
    by_cases hopen : ∃ target, instr = .loopOpen target
    · obtain ⟨target, rfl⟩ := hopen
      obtain ⟨r, hr, hsize⟩ := exists_takePartner h i target
      cases r with
      | none => exact ⟨none, by simp only [claimPartners, hr, Bind.bind, Except.bind]; rfl⟩
      | some taken =>
        rw [claimPartners_open hr]
        exact ih (hsize taken rfl) (i + 1)
    · rw [claimPartners_of_ne fun target heq => hopen ⟨target, heq⟩]
      exact ih h (i + 1)

end

/-- The first of the instructions still to come stands at `i`. -/
theorem get?_of_drop {instr : Instruction} {rest : List Instruction}
    (h : instr :: rest = p.instructions.toList.drop i) :
    p.get? i = some instr ∧ rest = p.instructions.toList.drop (i + 1) := by
  constructor
  · rw [get?, ← Array.getElem?_toList, ← List.head?_drop, ← h]
    rfl
  · rw [← List.tail_drop, ← h]
    rfl

/-- All partners found, the partners of all opens are taken. -/
theorem taken_of_claimPartners {rest : List Instruction} {claimed final : Array Bool}
    (hrest : rest = p.instructions.toList.drop i) (h : p.Taken i claimed)
    (hfinal : claimPartners p rest i claimed = .ok (some final)) :
    p.Taken (i + rest.length) final ∧
      ∀ k target, i ≤ k → p.get? k = some (.loopOpen target) →
        ∃ j, target = j + 1 ∧ p.Pair k j := by
  induction rest generalizing i claimed with
  | nil =>
    obtain rfl := Option.some.inj (Except.ok.inj hfinal)
    refine ⟨h, fun k target hk hopen => ?_⟩
    have hshort : p.size ≤ i := List.drop_eq_nil_iff.mp hrest.symm
    have hlt := (Array.getElem?_eq_some_iff.mp hopen).1
    have hsize : p.instructions.size = p.size := rfl
    omega
  | cons instr rest ih =>
    obtain ⟨hi, hrest'⟩ := get?_of_drop hrest
    have hlength : i + (instr :: rest).length = i + 1 + rest.length := by
      rw [List.length_cons]
      omega
    rw [hlength]
    by_cases hopen : ∃ target, instr = .loopOpen target
    · obtain ⟨target, rfl⟩ := hopen
      obtain ⟨taken, htake, hfinal⟩ := claimPartners_open_eq_some hfinal
      obtain ⟨j, rfl, pair⟩ := pair_of_takePartner hi htake
      obtain rfl := Option.some.inj (Except.ok.inj (htake.symm.trans (takePartner_of_pair h pair)))
      obtain ⟨htaken, hall⟩ := ih hrest' (h.take pair) hfinal
      refine ⟨htaken, fun k target hk hget => ?_⟩
      rcases Nat.eq_or_lt_of_le hk with rfl | hlt
      · rw [hi] at hget
        simp only [Option.some.injEq, Instruction.loopOpen.injEq] at hget
        exact ⟨j, hget.symm, pair⟩
      · exact hall k target hlt hget
    · have hne : ∀ target, instr ≠ .loopOpen target := fun target heq => hopen ⟨target, heq⟩
      have hget : ∀ target, p.get? i ≠ some (.loopOpen target) := by
        intro target hget
        exact hne target (Option.some.inj (hi.symm.trans hget))
      rw [claimPartners_of_ne hne] at hfinal
      obtain ⟨htaken, hall⟩ := ih hrest' (h.pass hget) hfinal
      refine ⟨htaken, fun k target hk hk' => ?_⟩
      rcases Nat.eq_or_lt_of_le hk with rfl | hlt
      · exact absurd hk' (hget target)
      · exact hall k target hlt hk'

/-- If every open has a partner, all partners are found. -/
theorem claimPartners_of_pairs {rest : List Instruction} {claimed : Array Bool}
    (hrest : rest = p.instructions.toList.drop i) (h : p.Taken i claimed)
    (hall : ∀ k target, p.get? k = some (.loopOpen target) → ∃ j, target = j + 1 ∧ p.Pair k j) :
    ∃ final, claimPartners p rest i claimed = .ok (some final) := by
  induction rest generalizing i claimed with
  | nil => exact ⟨claimed, rfl⟩
  | cons instr rest ih =>
    obtain ⟨hi, hrest'⟩ := get?_of_drop hrest
    by_cases hopen : ∃ target, instr = .loopOpen target
    · obtain ⟨target, rfl⟩ := hopen
      obtain ⟨j, rfl, pair⟩ := hall i target hi
      rw [claimPartners_open (takePartner_of_pair h pair)]
      exact ih hrest' (h.take pair)
    · have hne : ∀ target, instr ≠ .loopOpen target := fun target heq => hopen ⟨target, heq⟩
      rw [claimPartners_of_ne hne]
      refine ih hrest' (h.pass fun target hget => ?_)
      exact hne target (Option.some.inj (hi.symm.trans hget))

/-- Once all opens are passed, every close is taken exactly if every close has a partner. -/
theorem all_taken_iff {final : Array Bool} (h : p.Taken p.size final) :
    ((p.instructions.toList.zip final.toList).all fun
      | (.loopClose _, taken) => taken
      | _ => true) = true ↔
      ∀ j target, p.get? j = some (.loopClose target) → ∃ i, target = i + 1 ∧ p.Pair i j := by
  rw [List.all_eq_true]
  constructor
  · intro hall j target hj
    have hlt : j < final.size := h.size ▸ (Array.getElem?_eq_some_iff.mp hj).1
    have hmem : (Instruction.loopClose target, final[j]) ∈
        p.instructions.toList.zip final.toList := by
      apply List.mem_of_getElem? (i := j)
      exact List.getElem?_zip_eq_some.mpr ⟨Array.getElem?_toList.trans hj, by simp [hlt]⟩
    have htaken : final[j] = true := hall _ hmem
    obtain ⟨i, -, pair⟩ := (h.marks j).mp (by rw [Array.getElem?_eq_getElem hlt, htaken])
    have hback := pair.closes.symm.trans hj
    simp only [Option.some.injEq, Instruction.loopClose.injEq] at hback
    exact ⟨i, hback.symm, pair⟩
  · intro hall
    rintro ⟨instr, taken⟩ hmem
    obtain ⟨j, hj⟩ := List.mem_iff_getElem?.mp hmem
    obtain ⟨hinstr, htaken⟩ := List.getElem?_zip_eq_some.mp hj
    cases instr with
    | loopClose target =>
      obtain ⟨i, -, pair⟩ := hall j target (Array.getElem?_toList.symm.trans hinstr)
      have hmarked := (h.marks j).mpr ⟨i, Nat.lt_trans pair.before pair.lt_size, pair⟩
      rw [← Array.getElem?_toList, htaken] at hmarked
      exact Option.some.inj hmarked
    | move d => rfl
    | add d => rfl
    | input => rfl
    | output => rfl
    | loopOpen target => rfl

/-- The check always has an answer: no index leaves the program. -/
theorem checkLoops_eq (p : Program) : p.checkLoops = .ok p.isWellFormed := by
  have hchecked : ∃ b, p.checkLoops = .ok b := by
    obtain ⟨r, hr⟩ := exists_claimPartners (Taken.start p).size p.instructions.toList 0
    unfold checkLoops
    rw [hr]
    cases r with
    | none => exact ⟨false, rfl⟩
    | some claimed => exact ⟨_, rfl⟩
  obtain ⟨b, hb⟩ := hchecked
  rw [isWellFormed, hb]

/-- The check of the targets decides whether every open and every close belongs to a pair. -/
theorem isWellFormed_iff_paired : p.isWellFormed = true ↔ p.Paired := by
  have hchecked : p.isWellFormed = true ↔ p.checkLoops = .ok true := by
    rw [checkLoops_eq, Except.ok.injEq]
  rw [hchecked, checkLoops]
  constructor
  · intro h
    obtain ⟨r, hr, h⟩ := Except.bind_eq_ok.mp h
    cases r with
    | none => cases h
    | some final =>
      obtain ⟨htaken, hopens⟩ := taken_of_claimPartners rfl (Taken.start p) hr
      rw [Nat.zero_add] at htaken
      exact ⟨fun k target hk => hopens k target (Nat.zero_le k) hk,
        (all_taken_iff htaken).mp (Except.ok.inj h)⟩
  · intro paired
    have hstart : p.instructions.toList = p.instructions.toList.drop 0 := rfl
    obtain ⟨final, hfinal⟩ := claimPartners_of_pairs hstart (Taken.start p) paired.opens
    obtain ⟨htaken, -⟩ := taken_of_claimPartners rfl (Taken.start p) hfinal
    rw [Nat.zero_add] at htaken
    rw [hfinal]
    exact congrArg Except.ok ((all_taken_iff htaken).mpr paired.closes)

end TapeLang.Program
