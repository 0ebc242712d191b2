/-!
# Byte strings

Little-endian numbers inside byte strings, and rounding up to a multiple.
-/

namespace TapeLang

abbrev Bytes := List UInt8

namespace Bytes

/-- The low `count` bytes of `value`, least significant first. -/
def ofNat : (count value : Nat) → Bytes
  | 0, _ => []
  | count + 1, value => UInt8.ofNat value :: ofNat count (value / 256)

/-- The number a byte string spells, least significant byte first. -/
def toNat : Bytes → Nat
  | [] => 0
  | b :: bs => b.toNat + 256 * toNat bs

@[simp] theorem length_ofNat (count value : Nat) : (ofNat count value).length = count := by
  induction count generalizing value with
  | zero => rfl
  | succ count ih => simp [ofNat, ih]

theorem ofNat_toNat (bs : Bytes) : ofNat bs.length (toNat bs) = bs := by
  induction bs with
  | nil => rfl
  | cons b bs ih =>
    have hb := b.toNat_lt
    have hlow : UInt8.ofNat (b.toNat + 256 * toNat bs) = b := by
      apply UInt8.toNat_inj.mp
      rw [UInt8.toNat_ofNat']
      omega
    have hhigh : (b.toNat + 256 * toNat bs) / 256 = toNat bs := by omega
    simp only [List.length_cons, toNat, ofNat, hlow, hhigh, ih]

def ofUInt32 (n : UInt32) : Bytes := ofNat 4 n.toNat

def ofUInt64 (n : UInt64) : Bytes := ofNat 8 n.toNat

@[simp] theorem length_ofUInt32 (n : UInt32) : (ofUInt32 n).length = 4 := length_ofNat ..

@[simp] theorem length_ofUInt64 (n : UInt64) : (ofUInt64 n).length = 8 := length_ofNat ..

end Bytes

/-- The least multiple of `align` that is not below `value`. -/
def alignUp (value align : Nat) : Nat :=
  (value + (align - 1)) / align * align

end TapeLang
