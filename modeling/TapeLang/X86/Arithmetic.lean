import TapeLang.X86.Instruction

/-!
# Arithmetic and flags

Results and condition flags of the arithmetic the instruction forms need, at widths of eight, 32 and
64 bits.
-/

namespace TapeLang.X86

structure Flags where
  zero : Bool := false
  sign : Bool := false
  carry : Bool := false
  overflow : Bool := false
  deriving DecidableEq, Repr

inductive Width where
  | byte | half | word
  deriving DecidableEq, Repr

namespace Width

def mask : Width → UInt64
  | byte => 0xFF
  | half => 0xFFFFFFFF
  | word => 0xFFFFFFFFFFFFFFFF

/-- The value of the sign bit. -/
def top : Width → UInt64
  | byte => 0x80
  | half => 0x80000000
  | word => 0x8000000000000000

/-- The low bits of a value. -/
def low (w : Width) (v : UInt64) : UInt64 :=
  v &&& w.mask

def negative (w : Width) (v : UInt64) : Bool :=
  w.top ≤ v

end Width

/-- The sum of two values of a width and its flags. -/
def addFlags (w : Width) (a b : UInt64) : UInt64 × Flags :=
  let sum := w.low (a + b)
  (sum, {
    zero := sum == 0
    sign := w.negative sum
    carry := sum < a
    overflow := w.negative a == w.negative b && w.negative sum != w.negative a })

/-- The difference of two values of a width and its flags. -/
def subFlags (w : Width) (a b : UInt64) : UInt64 × Flags :=
  let difference := w.low (a - b)
  (difference, {
    zero := difference == 0
    sign := w.negative difference
    carry := a < b
    overflow := w.negative a != w.negative b && w.negative difference != w.negative a })

/-- The flags of a bitwise result. -/
def logicFlags (w : Width) (v : UInt64) : Flags :=
  { zero := v == 0, sign := w.negative v }

/-- Result and flags of an operation; a comparison subtracts and keeps no result. -/
def Alu.apply (op : Alu) (w : Width) (a b : UInt64) : Option UInt64 × Flags :=
  match op with
  | .add =>
    let (v, flags) := addFlags w a b
    (some v, flags)
  | .sub =>
    let (v, flags) := subFlags w a b
    (some v, flags)
  | .cmp => (none, (subFlags w a b).2)

def Cond.holds (c : Cond) (f : Flags) : Bool :=
  match c with
  | .below => f.carry
  | .aboveOrEqual => !f.carry
  | .equal => f.zero
  | .notEqual => !f.zero
  | .sign => f.sign
  | .lessOrEqual => f.zero || f.sign != f.overflow

/-- A signed number as an address offset or a 64-bit operand. -/
def signExtend (i : Int32) : UInt64 :=
  i.toInt64.toUInt64

end TapeLang.X86
