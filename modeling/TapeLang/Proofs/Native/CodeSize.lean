import TapeLang.Proofs.Native.HostCalls
import TapeLang.Proofs.Source.Rendering

/-!
# The code of texts

Paired loop ends have targets inside the program, and the programs of texts have no more instructions
than their code has bytes.
-/

namespace TapeLang

open X86 Assembly

namespace Assembly

theorem sizes_pos {items : List (Item Label)} {item : Item Label} (h : item ∈ items)
    (hitem : 0 < item.size) : 0 < sizes items := by
  obtain ⟨front, back, rfl⟩ := List.append_of_mem h
  rw [sizes_append, sizes_cons]
  omega

private theorem size_plain_pos {i : Instr} (h : i.breach? = none) :
    0 < (Item.plain i : Item Label).size :=
  length_encode_pos h

theorem size_branch_pos (c : Cond) (l : Label) : 0 < (Item.branch c l).size := by
  simp [Item.size, Item.template, Instr.encode]

private theorem size_jump_pos (l : Label) : 0 < (Item.jump l).size := by
  simp [Item.size, Item.template, Instr.encode]

end Assembly

namespace Native

/-- Paired loop ends have targets inside the program. -/
theorem targetsWithin_of_paired {p : Program} (h : p.Paired) :
    ∀ i ∈ p.instructions.toList, TargetsWithin p.size i := by
  intro i hi
  obtain ⟨k, hk⟩ := List.mem_iff_getElem?.mp hi
  have hget : p.get? k = some i := by simpa [Program.get?] using hk
  cases i with
  | loopOpen target =>
    obtain ⟨j, rfl, pair⟩ := h.opens k target hget
    exact pair.lt_size
  | loopClose target =>
    obtain ⟨j, rfl, pair⟩ := h.closes k target hget
    exact Nat.lt_trans pair.before pair.lt_size
  | move d => trivial
  | add d => trivial
  | input => trivial
  | output => trivial

namespace Frame

variable {f : Frame}

/-- The instructions of texts have code. Larger moves and additions may have none, if they are by
zero. -/
theorem sizes_piece_pos (henvironment : f.environment = HostCalls.environment) {i : Instruction}
    (unit : i.UnitDelta) (within : TargetsWithin f.size i) (s : Site) :
    0 < sizes (f.piece ⟨s, i⟩).1 := by
  have tidy : f.environment.Tidy := henvironment ▸ HostCalls.tidy
  cases i with
  | move d =>
    rw [piece_move]
    rcases unit with rfl | rfl
    · exact sizes_pos (by simp [moveItems]) (size_branch_pos .aboveOrEqual s.next)
    · exact sizes_pos (by simp [moveItems]) (size_branch_pos .below s.next)
  | add d =>
    have hne : d ≠ 0 := by
      rcases unit with rfl | rfl <;> decide
    have hitem : 0 < (Item.plain (.aluByteImm .add cell d.toUInt8) : Item Label).size :=
      size_plain_pos rfl
    rw [piece_add, addItems, if_neg hne]
    exact sizes_pos List.mem_cons_self hitem
  | input =>
    rw [piece_of_ok (fragment_input tidy s)]
    exact sizes_pos (by simp [inputItems]) (size_jump_pos (s.next + 1))
  | output =>
    rw [piece_of_ok (fragment_output tidy s), HostCalls.writing_eq henvironment]
    exact sizes_pos (by simp) (size_branch_pos .notEqual f.io)
  | loopOpen target =>
    rw [piece_of_ok (fragment_loopOpen within s)]
    exact sizes_pos (by simp [loopItems]) (size_branch_pos .equal (f.address target))
  | loopClose target =>
    rw [piece_of_ok (fragment_loopClose within s)]
    exact sizes_pos (by simp [loopItems]) (size_branch_pos .notEqual (f.address target))

theorem length_le_sizes (henvironment : f.environment = HostCalls.environment)
    {is : List Instruction} (unit : ∀ i ∈ is, i.UnitDelta)
    (within : ∀ i ∈ is, TargetsWithin f.size i) (s : Site) :
    is.length ≤ sizes (f.fragments (f.placed s is)) := by
  induction is generalizing s with
  | nil => exact Nat.zero_le _
  | cons i rest ih =>
    have hpiece := sizes_piece_pos henvironment (unit i List.mem_cons_self)
      (within i List.mem_cons_self) s
    have hrest := ih (fun j hj => unit j (List.mem_cons_of_mem _ hj))
      (fun j hj => within j (List.mem_cons_of_mem _ hj)) (f.following ⟨s, i⟩)
    have hsplit : f.fragments (f.placed s (i :: rest)) =
        (.bind (f.address s.index) :: (f.piece ⟨s, i⟩).1) ++
          f.fragments (f.placed (f.following ⟨s, i⟩) rest) := by
      simp [fragments, placed]
    rw [hsplit, sizes_append, sizes_cons, List.length_cons]
    omega

end Frame

theorem size_le_codeSize {p : Program} (unit : ∀ i ∈ p.instructions.toList, i.UnitDelta)
    (targets : ∀ i ∈ p.instructions.toList, TargetsWithin p.size i) (policy : EndOfInput) :
    p.size ≤ codeSize p HostCalls.environment policy := by
  let f := Frame.of p HostCalls.environment policy
  have hle : p.instructions.toList.length ≤
      sizes (f.fragments (f.placed f.start p.instructions.toList)) :=
    Frame.length_le_sizes rfl unit targets f.start
  rw [codeSize_eq HostCalls.tidy targets, Frame.layout, Frame.tail, List.drop_zero, sizes_append,
    sizes_append]
  rw [Array.length_toList] at hle
  exact Nat.le_trans hle (Nat.le_trans (Nat.le_add_right ..) (Nat.le_add_left ..))

end Native

end TapeLang
