/-!
# Tapes

A tape is a fixed number of byte cells and a pointer. Moves are checked: one that would leave the
tape is refused and changes nothing.
-/

namespace TapeLang

/-- Offsets and sizes are 64-bit words. -/
def wordLimit : Nat := 0x10000000000000000

/-- The sum of a word and a signed offset, if it is again a word. -/
def addSigned? (base : Nat) (delta : Int) : Option Nat :=
  let sum := (base : Int) + delta
  if 0 ≤ sum ∧ sum < wordLimit then some sum.toNat else none

theorem addSigned?_eq_some_iff {base n : Nat} {delta : Int} :
    addSigned? base delta = some n ↔ (n : Int) = base + delta ∧ n < wordLimit := by
  simp only [addSigned?, Option.ite_none_right_eq_some, Option.some.injEq]
  omega

structure Tape where
  cells : Array UInt8
  pointer : Nat
  deriving DecidableEq

namespace Tape

def defaultCapacity : Nat := 65536

def new (capacity : Nat) : Tape :=
  ⟨Array.replicate capacity 0, 0⟩

/-- A new tape, if the allocator grants so many bytes. It is not asked for more than half the address
space. -/
def allocate? (grants : Nat → Bool) (capacity : Nat) : Option Tape :=
  if capacity < 0x8000000000000000 ∧ grants capacity then some (new capacity) else none

def capacity (t : Tape) : Nat :=
  t.cells.size

/-- Moves the pointer by `delta`, if it stays on the tape. -/
def move? (t : Tape) (delta : Int64) : Option Tape :=
  match addSigned? t.pointer delta.toInt with
  | none => none
  | some next => if next < t.cells.size then some { t with pointer := next } else none

/-- The current cell; a tape without cells has none. -/
def get? (t : Tape) : Option UInt8 :=
  t.cells[t.pointer]?

/-- Stores in the current cell. -/
def set : Tape → UInt8 → Tape
  | ⟨cells, pointer⟩, v => ⟨cells.setIfInBounds pointer v, pointer⟩

/-- Adds to the current cell modulo 256. -/
def add : Tape → Int8 → Tape
  | ⟨cells, pointer⟩, d => ⟨cells.modify pointer (· + d.toUInt8), pointer⟩

def set? (t : Tape) (v : UInt8) : Option Tape :=
  if t.pointer < t.cells.size then some (t.set v) else none

def add? (t : Tape) (d : Int8) : Option Tape :=
  if t.pointer < t.cells.size then some (t.add d) else none

/-- Zeroes every cell and goes back to the first. -/
def reset (t : Tape) : Tape :=
  new t.capacity

/-- Puts the pointer on a cell of the tape. -/
def setPointer? (t : Tape) (pointer : Nat) : Option Tape :=
  if pointer < t.cells.size then some { t with pointer } else none

/-- Writes any cell, wherever the pointer is. -/
def poke? (t : Tape) (i : Nat) (v : UInt8) : Option Tape :=
  if h : i < t.cells.size then some { t with cells := t.cells.set i v h } else none

@[simp] theorem capacity_new (n : Nat) : (new n).capacity = n := by
  simp [new, capacity]

@[simp] theorem capacity_set (t : Tape) (v : UInt8) : (t.set v).capacity = t.capacity := by
  simp [set, capacity]

@[simp] theorem capacity_add (t : Tape) (d : Int8) : (t.add d).capacity = t.capacity := by
  simp [add, capacity]

@[simp] theorem capacity_reset (t : Tape) : t.reset.capacity = t.capacity :=
  capacity_new _

@[simp] theorem pointer_set (t : Tape) (v : UInt8) : (t.set v).pointer = t.pointer := rfl

@[simp] theorem pointer_add (t : Tape) (d : Int8) : (t.add d).pointer = t.pointer := rfl

theorem get?_set {t : Tape} (v : UInt8) (h : t.pointer < t.capacity) : (t.set v).get? = some v := by
  have h' : t.pointer < t.cells.size := h
  simp [set, get?, h']

theorem get?_add {t : Tape} {b : UInt8} (d : Int8) (h : t.get? = some b) :
    (t.add d).get? = some (b + d.toUInt8) := by
  unfold get? at h
  simp [add, get?, Array.getElem?_modify, h]

/-- A move succeeds exactly when the sum of pointer and delta, as an integer, is a place on the tape;
no tape has more places than there are words. -/
theorem move?_eq_some_iff {t u : Tape} {d : Int64} (h : t.capacity ≤ wordLimit) :
    t.move? d = some u ↔
      ∃ next : Nat, (next : Int) = t.pointer + d.toInt ∧ next < t.capacity ∧ u = ⟨t.cells, next⟩ := by
  unfold move?
  constructor
  · intro moved
    split at moved
    next => simp at moved
    next next sum =>
      split at moved
      next inside =>
        have sum' := addSigned?_eq_some_iff.mp sum
        exact ⟨next, sum'.1, inside, (Option.some.inj moved).symm⟩
      next => simp at moved
  · rintro ⟨next, sum, inside, rfl⟩
    have inside' : next < t.cells.size := inside
    have word : next < wordLimit := Nat.lt_of_lt_of_le inside h
    simp only [addSigned?_eq_some_iff.mpr ⟨sum, word⟩, inside', if_true]

end Tape

end TapeLang
