import TapeLang.X86.Code

/-!
# Memory of a running program

Four regions and nothing else: code, which is only read, the tape, a context and a stack. A region is
found by the distance from its base, modulo the size of the address space.
-/

namespace TapeLang.X86

structure Region where
  base : UInt64
  bytes : Array UInt8
  deriving DecidableEq

namespace Region

/-- The place of an address in a region, which may lie behind its end. -/
def index (g : Region) (a : UInt64) : Nat :=
  (a - g.base).toNat

def contains (g : Region) (a : UInt64) : Bool :=
  g.index a < g.bytes.size

def load? (g : Region) (a : UInt64) : Option UInt8 :=
  g.bytes[g.index a]?

def store : Region → UInt64 → UInt8 → Region
  | ⟨base, bytes⟩, a, b => ⟨base, bytes.setIfInBounds (a - base).toNat b⟩

/-- Up to `count` bytes from an address on. -/
def window (g : Region) (a : UInt64) (count : Nat) : Bytes :=
  let i := g.index a
  (g.bytes.extract i (i + count)).toList

@[simp] theorem size_store (g : Region) (a : UInt64) (b : UInt8) :
    (g.store a b).bytes.size = g.bytes.size := by
  simp [store]

@[simp] theorem base_store (g : Region) (a : UInt64) (b : UInt8) :
    (g.store a b).base = g.base := rfl

@[simp] theorem contains_store (g : Region) (a c : UInt64) (b : UInt8) :
    (g.store a b).contains c = g.contains c := by
  apply decide_eq_decide.mpr
  rw [size_store]
  exact Iff.rfl

theorem load?_store_self {g : Region} {a : UInt64} (b : UInt8) (h : g.contains a = true) :
    (g.store a b).load? a = some b := by
  have inside : (a - g.base).toNat < g.bytes.size := of_decide_eq_true h
  simp [store, load?, index, inside]

theorem load?_store_of_ne {g : Region} {a c : UInt64} (b : UInt8) (h : a ≠ c) :
    (g.store a b).load? c = g.load? c := by
  have h' : (a - g.base).toNat ≠ (c - g.base).toNat := by
    intro same
    exact h ((UInt64.sub_left_inj _).mp (UInt64.toNat_inj.mp same))
  simp [store, load?, index, Array.getElem?_setIfInBounds_ne h']

end Region

structure Memory where
  code : Code
  tape : Region
  context : Region
  stack : Region

namespace Memory

/-- The byte at an address, if a region holds it. -/
def load? (m : Memory) (a : UInt64) : Option UInt8 :=
  if m.tape.contains a then m.tape.load? a
  else if m.context.contains a then m.context.load? a
  else if m.stack.contains a then m.stack.load? a
  else m.code.load? a

/-- Stores a byte, if a region that may be written holds the address. -/
def store? : Memory → UInt64 → UInt8 → Option Memory
  | ⟨code, tape, context, stack⟩, a, b =>
    if tape.contains a then some ⟨code, tape.store a b, context, stack⟩
    else if context.contains a then some ⟨code, tape, context.store a b, stack⟩
    else if stack.contains a then some ⟨code, tape, context, stack.store a b⟩
    else none

def loadBytes? (m : Memory) (a : UInt64) : (count : Nat) → Option Bytes
  | 0 => some []
  | count + 1 => do
    let b ← m.load? a
    let rest ← m.loadBytes? (a + 1) count
    return b :: rest

def storeBytes? : Memory → UInt64 → Bytes → Option Memory
  | m, _, [] => some m
  | m, a, b :: rest => do
    let m ← m.store? a b
    m.storeBytes? (a + 1) rest

def loadWord? (m : Memory) (a : UInt64) : Option UInt64 :=
  (m.loadBytes? a 8).map fun bytes => UInt64.ofNat (Bytes.toNat bytes)

def storeWord? (m : Memory) (a : UInt64) (w : UInt64) : Option Memory :=
  m.storeBytes? a (Bytes.ofUInt64 w)

end Memory

end TapeLang.X86
