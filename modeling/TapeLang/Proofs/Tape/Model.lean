import Mathlib.Data.ZMod.Basic
import TapeLang.Proofs.Interpreter.Steps
import TapeLang.Tape.Operation

/-!
# What a tape stands for

A tape of bytes with a pointer that is a machine word stands for cells modulo 256 and a pointer that is an
integer. Whatever is done to a tape, it answers like what it stands for and goes on standing for it: no sum
of pointer and distance wraps around, and no cell carries over into another.
-/

namespace TapeLang.Tape

variable {t : Tape}

/-! Bytes modulo 256. -/

/-- A byte as an integer modulo 256. -/
def residue (b : UInt8) : ZMod 256 :=
  b.toNat

private theorem val_residue (b : UInt8) : (residue b).val = b.toNat :=
  ZMod.val_cast_of_lt b.toNat_lt

private theorem residue_add (b c : UInt8) : residue (b + c) = residue b + residue c := by
  rw [residue, UInt8.toNat_add]
  exact (ZMod.natCast_mod _ 256).trans (Nat.cast_add _ _)

/-- A signed distance is added to a byte as the integer it is. -/
theorem residue_toUInt8 (d : Int8) : residue d.toUInt8 = d.toInt := by
  have hbits : d.toInt = (d.toUInt8.toNat : ℤ).bmod 256 := by
    rw [← Int8.toInt_toBitVec, BitVec.toInt_eq_toNat_bmod, ← UInt8.toNat_toBitVec,
      Int8.toBitVec_toUInt8]
  rw [hbits, residue, ← Int.cast_natCast, ZMod.intCast_eq_intCast_iff]
  exact Int.bmod_emod.symm

/-! The tape that is meant. -/

/-- A tape with a cell modulo 256 at every integer, of which those below the capacity can be used, and an
integer as its pointer. -/
@[ext]
structure Model where
  capacity : Nat
  cells : ℤ → ZMod 256
  pointer : ℤ

namespace Model

def new (capacity : Nat) : Model :=
  ⟨capacity, fun _ => 0, 0⟩

def store (m : Model) (place : ℤ) (value : ZMod 256) : Model :=
  { m with cells := Function.update m.cells place value }

def perform (m : Model) : Operation → Answer ℤ (ZMod 256) × Model
  | .move delta index =>
    if 0 ≤ m.pointer + delta.toInt ∧ m.pointer + delta.toInt < m.capacity then
      (.done, { m with pointer := m.pointer + delta.toInt })
    else (.outOfTape index m.pointer, m)
  | .add delta =>
    if m.capacity = 0 then (.noCell, m)
    else (.done, m.store m.pointer (m.cells m.pointer + delta.toInt))
  | .set v => if m.capacity = 0 then (.noCell, m) else (.done, m.store m.pointer v.toNat)
  | .get => if m.capacity = 0 then (.noCell, m) else (.cell (m.cells m.pointer), m)
  | .reset => (.done, new m.capacity)
  | .setPointer pointer =>
    if pointer < m.capacity then (.done, { m with pointer := pointer }) else (.refused, m)
  | .poke i v => if i < m.capacity then (.done, m.store i v.toNat) else (.refused, m)

def performAll (m : Model) (ops : List Operation) : List (Answer ℤ (ZMod 256)) × Model :=
  Operation.runAll perform m ops

end Model

/-- What a tape stands for. -/
def model (t : Tape) : Model where
  capacity := t.capacity
  cells k := if 0 ≤ k then residue (t.cells.getD k.toNat 0) else 0
  pointer := t.pointer

theorem model_cells (t : Tape) (i : Nat) : t.model.cells i = residue (t.cells.getD i 0) := by
  simp [model]

theorem model_new (n : Nat) : (new n).model = Model.new n := by
  apply Model.ext
  · exact capacity_new n
  · funext k
    simp only [model, new, Model.new, Array.getD_eq_getD_getElem?, Array.getElem?_replicate]
    split
    · split <;> rfl
    · rfl
  · rfl

/-- A byte stored on the tape is a cell stored in what it stands for. -/
theorem model_setIfInBounds {i : Nat} (h : i < t.capacity) (v : UInt8) :
    model ⟨t.cells.setIfInBounds i v, t.pointer⟩ = t.model.store i (residue v) := by
  apply Model.ext
  · exact Array.size_setIfInBounds
  · funext k
    show _ = Function.update t.model.cells i (residue v) k
    rw [Function.update_apply]
    cases k with
    | negSucc k => simp [model]
    | ofNat k =>
      have hlt : i < t.cells.size := h
      rw [Int.ofNat_eq_natCast, model_cells, model_cells, Array.getD_eq_getD_getElem?,
        Array.getD_eq_getD_getElem?, Array.getElem?_setIfInBounds]
      by_cases hk : i = k
      · simp [hk ▸ hlt, hk]
      · simp [hk, Ne.symm hk]
  · rfl

/-! Operations. -/

/-- A tape as it comes about: its pointer is on a cell, or there is no cell and it is at the start. No tape
has more cells than there are words. -/
structure Sound (t : Tape) : Prop where
  small : t.capacity ≤ wordLimit
  placed : t.OnCell ∨ t.capacity = 0 ∧ t.pointer = 0

theorem sound_new {n : Nat} (h : n ≤ wordLimit) : (new n).Sound := by
  constructor
  · rwa [capacity_new]
  · rw [OnCell, capacity_new]
    rcases Nat.eq_zero_or_pos n with hn | hn
    · exact .inr ⟨hn, rfl⟩
    · exact .inl hn

namespace Sound

private theorem of_onCell (h : t.Sound) {u : Tape} (onCell : u.OnCell) (same : u.capacity = t.capacity) :
    u.Sound :=
  ⟨same ▸ h.small, .inl onCell⟩

/-- Only a tape without cells has no current cell. -/
theorem lt_size_iff (h : t.Sound) : t.pointer < t.cells.size ↔ ¬ t.capacity = 0 := by
  have placed := h.placed
  unfold OnCell at placed
  unfold capacity at placed ⊢
  omega

theorem onCell (h : t.Sound) (hcells : ¬ t.capacity = 0) : t.OnCell :=
  h.lt_size_iff.mpr hcells

/-! What each operation does, and when. -/

theorem perform_move (h : t.Sound) (delta : Int64) (index : Nat) :
    t.perform (.move delta index) =
      if 0 ≤ t.pointer + delta.toInt ∧ t.pointer + delta.toInt < t.capacity then
        (.done, ⟨t.cells, (t.pointer + delta.toInt).toNat⟩)
      else (.outOfTape index t.pointer, t) := by
  rw [perform, move?_eq_ite h.small]
  split <;> rfl

private theorem perform_add (h : t.Sound) (delta : Int8) :
    t.perform (.add delta) = if t.capacity = 0 then (.noCell, t) else (.done, t.add delta) := by
  simp only [perform, add?, h.lt_size_iff, ite_not]
  split <;> rfl

private theorem perform_set (h : t.Sound) (v : UInt8) :
    t.perform (.set v) = if t.capacity = 0 then (.noCell, t) else (.done, t.set v) := by
  simp only [perform, set?, h.lt_size_iff, ite_not]
  split <;> rfl

private theorem perform_get (h : t.Sound) :
    t.perform .get =
      if t.capacity = 0 then (.noCell, t) else (.cell (t.cells.getD t.pointer 0), t) := by
  rw [perform, get?, Array.getD_eq_getD_getElem?]
  by_cases hcells : t.capacity = 0
  · have outside : ¬ t.pointer < t.cells.size := mt h.lt_size_iff.mp (not_not_intro hcells)
    rw [if_pos hcells, Array.getElem?_eq_none (Nat.le_of_not_lt outside)]
  · rw [if_neg hcells, Array.getElem?_eq_getElem (h.onCell hcells)]
    rfl

end Sound

private theorem perform_setPointer (t : Tape) (pointer : Nat) :
    t.perform (.setPointer pointer) =
      if pointer < t.capacity then (.done, ⟨t.cells, pointer⟩) else (.refused, t) := by
  rw [perform, setPointer?]
  show t.change .refused (if pointer < t.capacity then _ else _) = _
  split <;> rfl

private theorem perform_poke (t : Tape) (i : Nat) (v : UInt8) :
    t.perform (.poke i v) =
      if i < t.capacity then (.done, ⟨t.cells.setIfInBounds i v, t.pointer⟩) else (.refused, t) := by
  rw [perform, poke?, Array.setIfInBounds_def]
  by_cases inside : i < t.cells.size
  · rw [dif_pos inside, dif_pos inside, if_pos (show i < t.capacity from inside)]
    rfl
  · rw [dif_neg inside, if_neg (show ¬ i < t.capacity from inside)]
    rfl

/-- Every operation keeps the number of cells, and the pointer on one of them. -/
theorem Sound.perform (h : t.Sound) (op : Operation) :
    (t.perform op).2.Sound ∧ (t.perform op).2.capacity = t.capacity := by
  cases op with
  | move delta index =>
    rw [h.perform_move]
    split
    next inside =>
      have onCell : (t.pointer + delta.toInt).toNat < t.capacity := by omega
      exact ⟨h.of_onCell onCell rfl, rfl⟩
    next => exact ⟨h, rfl⟩
  | add delta =>
    rw [h.perform_add]
    split
    next => exact ⟨h, rfl⟩
    next hcells =>
      exact ⟨h.of_onCell ((h.onCell hcells).add delta) (capacity_add t delta), capacity_add t delta⟩
  | set v =>
    rw [h.perform_set]
    split
    next => exact ⟨h, rfl⟩
    next hcells =>
      exact ⟨h.of_onCell ((h.onCell hcells).set v) (capacity_set t v), capacity_set t v⟩
  | get =>
    rw [h.perform_get]
    split <;> exact ⟨h, rfl⟩
  | reset => exact ⟨sound_new h.small, capacity_reset t⟩
  | setPointer pointer =>
    rw [perform_setPointer]
    split
    next onCell => exact ⟨h.of_onCell onCell rfl, rfl⟩
    next => exact ⟨h, rfl⟩
  | poke i v =>
    rw [perform_poke]
    split
    next =>
      have same : (t.cells.setIfInBounds i v).size = t.cells.size := Array.size_setIfInBounds
      refine ⟨⟨?_, ?_⟩, same⟩
      · rw [capacity, same]
        exact h.small
      · rw [OnCell, capacity, same]
        exact h.placed
    next => exact ⟨h, rfl⟩

/-- A tape answers like what it stands for, and stands for what that becomes. -/
theorem Sound.model_perform (h : t.Sound) (op : Operation) :
    t.model.perform op = ((t.perform op).1.map Nat.cast residue, (t.perform op).2.model) := by
  cases op with
  | move delta index =>
    rw [h.perform_move, Model.perform]
    show (if 0 ≤ (t.pointer : ℤ) + delta.toInt ∧ (t.pointer : ℤ) + delta.toInt < t.capacity then _ else _) = _
    split
    next inside =>
      have hpointer : (((t.pointer : ℤ) + delta.toInt).toNat : ℤ) = t.pointer + delta.toInt :=
        Int.toNat_of_nonneg inside.1
      simp only [Answer.map, model, hpointer, capacity]
    next => rfl
  | add delta =>
    rw [h.perform_add, Model.perform]
    show (if t.capacity = 0 then _ else _) = _
    split
    next => rfl
    next hcells =>
      have onCell : t.pointer < t.cells.size := h.onCell hcells
      have hget := Array.getElem?_eq_getElem onCell
      have hcell : t.model.cells t.pointer = residue t.cells[t.pointer] := by
        rw [model_cells, Array.getD_eq_getD_getElem?, hget, Option.getD_some]
      have hadd : (t.add delta).model =
          t.model.store t.pointer (residue t.cells[t.pointer] + delta.toInt) := by
        rw [add_eq_set hget, ← residue_toUInt8, ← residue_add]
        exact model_setIfInBounds onCell _
      rw [hadd, ← hcell]
      rfl
  | set v =>
    rw [h.perform_set, Model.perform]
    show (if t.capacity = 0 then _ else _) = _
    split
    next => rfl
    next hcells =>
      have hset : (t.set v).model = t.model.store t.pointer (residue v) :=
        model_setIfInBounds (h.onCell hcells) v
      rw [hset]
      rfl
  | get =>
    rw [h.perform_get, Model.perform]
    show (if t.capacity = 0 then _ else _) = _
    split
    next => rfl
    next =>
      show (Answer.cell (t.model.cells t.pointer), t.model) = _
      rw [model_cells]
      rfl
  | reset =>
    show (_, Model.new t.capacity) = (_, (new t.capacity).model)
    rw [model_new]
    rfl
  | setPointer pointer =>
    rw [perform_setPointer, Model.perform]
    show (if pointer < t.capacity then _ else _) = _
    split <;> rfl
  | poke i v =>
    rw [perform_poke, Model.perform]
    show (if i < t.capacity then _ else _) = _
    split
    next hi =>
      rw [model_setIfInBounds hi]
      rfl
    next => rfl

/-! Operations in a row. -/

theorem Sound.performAll (h : t.Sound) (ops : List Operation) :
    (t.performAll ops).2.Sound ∧ (t.performAll ops).2.capacity = t.capacity := by
  induction ops generalizing t with
  | nil => exact ⟨h, rfl⟩
  | cons op rest ih =>
    obtain ⟨sound, same⟩ := h.perform op
    obtain ⟨soundRest, sameRest⟩ := ih sound
    exact ⟨soundRest, sameRest.trans same⟩

private theorem Sound.model_performAll (h : t.Sound) (ops : List Operation) :
    t.model.performAll ops =
      ((t.performAll ops).1.map (Answer.map Nat.cast residue), (t.performAll ops).2.model) := by
  induction ops generalizing t with
  | nil => rfl
  | cons op rest ih =>
    have hrest := ih (h.perform op).1
    unfold Model.performAll at hrest ⊢
    simp only [Operation.runAll, h.model_perform op, hrest]
    rfl

/-! The laws of a tape. -/

/-- Two tapes that differ in the cell at the pointer only. -/
structure SameElsewhere (t u : Tape) : Prop where
  pointer : u.pointer = t.pointer
  cells : ∀ i ≠ t.pointer, u.cells[i]? = t.cells[i]?

private theorem sameElsewhere_set (t : Tape) (v : UInt8) : t.SameElsewhere (t.set v) :=
  ⟨rfl, fun _ hi => Array.getElem?_setIfInBounds_ne hi.symm⟩

private theorem Sound.sameElsewhere_add (h : t.Sound) (hcells : ¬ t.capacity = 0) (delta : Int8) :
    t.SameElsewhere (t.add delta) := by
  have onCell : t.pointer < t.cells.size := h.onCell hcells
  rw [add_eq_set (Array.getElem?_eq_getElem onCell)]
  exact sameElsewhere_set t _

/-- What holds of a tape of `n` cells at any time. -/
structure Lawful (t : Tape) (n : Nat) : Prop where
  capacity_eq : t.capacity = n
  pointer_lt : 0 < n → t.pointer < n
  pointer_eq_zero : n = 0 → t.pointer = 0
  accepted_move_iff : ∀ delta index, (t.perform (.move delta index)).1.accepted ↔
    0 ≤ (t.pointer : ℤ) + delta.toInt ∧ (t.pointer : ℤ) + delta.toInt < n
  accepted_setPointer_iff : ∀ pointer, (t.perform (.setPointer pointer)).1.accepted ↔ pointer < n
  unchanged : ∀ op, ¬ (t.perform op).1.accepted → (t.perform op).2 = t
  sameElsewhere_add : ∀ delta, t.SameElsewhere (t.perform (.add delta)).2
  sameElsewhere_set : ∀ v, t.SameElsewhere (t.perform (.set v)).2
  noCell_iff : ∀ op, (t.perform op).1 = .noCell ↔ op.usesCell ∧ n = 0

private theorem unchanged_of_not_accepted (t : Tape) (op : Operation) (h : ¬ (t.perform op).1.accepted) :
    (t.perform op).2 = t := by
  have change_snd {otherwise} {u : Option Tape} (h : ¬ (t.change otherwise u).1.accepted) :
      (t.change otherwise u).2 = t := by
    cases u with
    | none => rfl
    | some u => exact absurd rfl h
  cases op with
  | get =>
    rw [Tape.perform]
    split <;> rfl
  | reset => exact absurd rfl h
  | _ => exact change_snd h

theorem Sound.noCell_iff (h : t.Sound) (op : Operation) :
    (t.perform op).1 = .noCell ↔ op.usesCell ∧ t.capacity = 0 := by
  -- Of the answers given below only one is the answer without a cell.
  have done_ne : Answer.done ≠ (.noCell : Answer Nat UInt8) := nofun
  have cell_ne (b : UInt8) : Answer.cell b ≠ (.noCell : Answer Nat UInt8) := nofun
  have refused_ne : Answer.refused ≠ (.noCell : Answer Nat UInt8) := nofun
  have outOfTape_ne (index pointer : Nat) :
      Answer.outOfTape index pointer ≠ (.noCell : Answer Nat UInt8) := nofun
  have unused {x y : Answer Nat UInt8 × Tape} {c : Prop} [Decidable c] (hx : x.1 ≠ .noCell)
      (hy : y.1 ≠ .noCell) : (if c then x else y).1 = .noCell ↔ false = true ∧ t.capacity = 0 := by
    refine iff_of_false ?_ fun uses => Bool.false_ne_true uses.1
    split
    · exact hx
    · exact hy
  have used {x : Answer Nat UInt8 × Tape} (hx : x.1 ≠ .noCell) :
      (if t.capacity = 0 then (Answer.noCell, t) else x).1 = .noCell ↔
        true = true ∧ t.capacity = 0 := by
    split
    next hcells => exact iff_of_true rfl ⟨rfl, hcells⟩
    next hcells => exact iff_of_false hx fun uses => hcells uses.2
  cases op with
  | move delta index =>
    rw [h.perform_move]
    exact unused done_ne (outOfTape_ne index t.pointer)
  | add delta =>
    rw [h.perform_add]
    exact used done_ne
  | set v =>
    rw [h.perform_set]
    exact used done_ne
  | get =>
    rw [h.perform_get]
    exact used (cell_ne _)
  | reset => exact iff_of_false done_ne fun uses => Bool.false_ne_true uses.1
  | setPointer pointer =>
    rw [perform_setPointer]
    exact unused done_ne refused_ne
  | poke i v =>
    rw [perform_poke]
    exact unused done_ne refused_ne

theorem Sound.lawful (h : t.Sound) : t.Lawful t.capacity where
  capacity_eq := rfl
  pointer_lt hpos := h.onCell (Nat.pos_iff_ne_zero.mp hpos)
  pointer_eq_zero hzero := by
    rcases h.placed with onCell | start
    · unfold OnCell at onCell
      omega
    · exact start.2
  accepted_move_iff delta index := by
    rw [h.perform_move]
    split
    next inside => exact iff_of_true rfl inside
    next outside => exact iff_of_false Bool.false_ne_true outside
  accepted_setPointer_iff pointer := by
    rw [perform_setPointer]
    split
    next inside => exact iff_of_true rfl inside
    next outside => exact iff_of_false Bool.false_ne_true outside
  unchanged := unchanged_of_not_accepted t
  sameElsewhere_add delta := by
    rw [h.perform_add]
    split
    next => exact ⟨rfl, fun _ _ => rfl⟩
    next hcells => exact h.sameElsewhere_add hcells delta
  sameElsewhere_set v := by
    rw [h.perform_set]
    split
    next => exact ⟨rfl, fun _ _ => rfl⟩
    next => exact sameElsewhere_set t v
  noCell_iff := h.noCell_iff

/-- Whatever is done to a new tape, in whatever order, it answers like cells modulo 256 under an integer
pointer, holds the same cells behind them, and obeys the laws of its capacity. -/
theorem performAll_new_refines (capacity : UInt64) (ops : List Operation) :
    let m := (Model.new capacity.toNat).performAll ops
    let run := (new capacity.toNat).performAll ops
    run.2.Lawful capacity.toNat ∧
      m.1 = run.1.map (Answer.map Nat.cast residue) ∧
      m.2.pointer = run.2.pointer ∧
      ∀ i (h : i < run.2.cells.size), (m.2.cells i).val = run.2.cells[i].toNat := by
  intro m run
  have sound : (new capacity.toNat).Sound := sound_new (Nat.le_of_lt capacity.toNat_lt)
  obtain ⟨soundRun, same⟩ := sound.performAll ops
  have refines : m = (run.1.map (Answer.map Nat.cast residue), run.2.model) := by
    rw [← sound.model_performAll, model_new]
  refine ⟨?_, ?_, ?_, ?_⟩
  · rw [capacity_new] at same
    exact same ▸ soundRun.lawful
  · rw [refines]
  · rw [refines]
    rfl
  · intro i h
    rw [refines, model_cells, val_residue, Array.getD_eq_getD_getElem?, Array.getElem?_eq_getElem h,
      Option.getD_some]

-- A cell is taken below zero and another beyond 255; one step to the left and the cell behind the last are
-- refused.
example :
    (new 3).performAll
        [.add (-1), .move (-1) 7, .move 2 8, .set 200, .add 100, .get, .setPointer 3, .poke 1 9] =
      ([.done, .outOfTape 7 0, .done, .done, .done, .cell 44, .refused, .done], ⟨#[255, 9, 44], 2⟩) := by
  decide

end TapeLang.Tape
