import TapeLang.Bytes

/-!
# Hexadecimal text

Two lower-case digits for each byte.
-/

namespace TapeLang.Hex

def digit (n : Nat) : Char :=
  if n < 10 then Char.ofNat (48 + n) else Char.ofNat (87 + n)

def encode (bytes : Bytes) : String :=
  String.ofList (bytes.flatMap fun b => [digit (b.toNat / 16), digit (b.toNat % 16)])

def value? (c : Char) : Option Nat :=
  if '0' ≤ c ∧ c ≤ '9' then some (c.toNat - 48)
  else if 'a' ≤ c ∧ c ≤ 'f' then some (c.toNat - 87)
  else none

/-- Reads pairs of digits; `none` for an odd length or any other character. -/
def decode? (text : String) : Option Bytes :=
  go #[] text.toList
where
  go (acc : Array UInt8) : List Char → Option Bytes
    | [] => some acc.toList
    | [_] => none
    | hi :: lo :: rest =>
      match value? hi, value? lo with
      | some h, some l => go (acc.push (UInt8.ofNat (16 * h + l))) rest
      | _, _ => none

/-- The digits of a number, most significant first and without leading zeros. -/
def ofNat (n : Nat) : String :=
  String.ofList (Nat.toDigits 16 n)

end TapeLang.Hex
