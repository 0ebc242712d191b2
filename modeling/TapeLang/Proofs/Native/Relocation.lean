import TapeLang.Proofs.Native.Layout
import Mathlib.Data.List.Pairwise

/-!
# Filling in the address of the tape

Code is generated before its tape has an address. The address is written later into the places left
open for it, one after the other, so where two of them overlap the last one stands. Code of a program
has its places apart, and filling them in gives the code for that address.
-/

namespace TapeLang

open X86 Assembly

namespace Assembly

private theorem relocations_inside {labels : Nat} {items : List (Item Label)} {a : Assembled}
    (h : assemble labels items = .ok a) : ∀ r ∈ a.relocations, r + 8 ≤ a.code.length := by
  obtain ⟨hcode, -, hfields⟩ := assemble_eq_ok.mp h
  intro r hr
  rw [hfields] at hr
  obtain ⟨-, hle⟩ := openFields_bounds hr
  rw [length_codeBytes hcode]
  omega

end Assembly

namespace Native

/-! Overwriting. -/

section

variable {bytes new out : Bytes} {offset : Nat}

private theorem overwrite_eq_ok (h : overwrite bytes offset new = .ok out) :
    offset + new.length ≤ bytes.length ∧
      out = bytes.take offset ++ new ++ bytes.drop (offset + new.length) := by
  unfold overwrite at h
  split at h
  next hle => exact ⟨hle, (Except.ok.inj h).symm⟩
  next => cases h

theorem length_overwrite (h : overwrite bytes offset new = .ok out) :
    out.length = bytes.length := by
  obtain ⟨hle, rfl⟩ := overwrite_eq_ok h
  simp only [List.length_append, List.length_take, List.length_drop]
  omega

theorem getElem?_overwrite (h : overwrite bytes offset new = .ok out) (i : Nat) :
    out[i]? = if offset ≤ i ∧ i < offset + new.length then new[i - offset]? else bytes[i]? := by
  obtain ⟨hle, rfl⟩ := overwrite_eq_ok h
  have hfront : (bytes.take offset).length = offset := List.length_take_of_le (by omega)
  have hboth : (bytes.take offset ++ new).length = offset + new.length := by
    rw [List.length_append, hfront]
  split
  next inside =>
    rw [List.getElem?_append_left (by omega), List.getElem?_append_right (by omega), hfront]
  next outside =>
    rcases Nat.lt_or_ge i offset with hi | hi
    · rw [List.getElem?_append_left (by omega), List.getElem?_append_left (by omega),
        List.getElem?_take_of_lt hi]
    · rw [List.getElem?_append_right (by omega), List.getElem?_drop, hboth,
        Nat.add_sub_cancel' (by omega)]

end

/-! Filling in. -/

/-- The last of some offsets whose eight bytes hold a byte. -/
def lastCovering? (offsets : List Nat) (i : Nat) : Option Nat :=
  offsets.reverse.find? fun r => r ≤ i ∧ i < r + 8

private theorem lastCovering?_cons (r : Nat) (rest : List Nat) (i : Nat) :
    lastCovering? (r :: rest) i =
      (lastCovering? rest i).or (if r ≤ i ∧ i < r + 8 then some r else none) := by
  by_cases h : r ≤ i ∧ i < r + 8 <;> simp [lastCovering?, h]

/-- Where nothing overlaps, the only offset that covers a byte is the last. -/
theorem lastCovering?_of_apart {offsets : List Nat}
    (apart : offsets.Pairwise fun r s => r + 8 ≤ s ∨ s + 8 ≤ r) {r i : Nat} (hr : r ∈ offsets)
    (hi : r ≤ i ∧ i < r + 8) : lastCovering? offsets i = some r := by
  have : Std.Symm fun r s : Nat => r + 8 ≤ s ∨ s + 8 ≤ r := ⟨fun _ _ => Or.symm⟩
  cases h : lastCovering? offsets i with
  | none =>
    have hnone := List.find?_eq_none.mp h r (List.mem_reverse.mpr hr)
    simp [hi] at hnone
  | some s =>
    have hcovers := List.find?_some h
    have hs := List.mem_reverse.mp (List.mem_of_find?_eq_some h)
    simp only [decide_eq_true_eq] at hcovers
    by_contra hne
    have hapart := apart.forall hs hr fun same => hne (congrArg some same)
    omega

/-- An address was filled in at some offsets: each byte is that of the last address over it, and as it
was if there is none. -/
structure Filled (offsets : List Nat) (address : UInt64) (bytes out : Bytes) : Prop where
  length_eq : out.length = bytes.length
  byte : ∀ i, out[i]? = match lastCovering? offsets i with
    | some r => (Bytes.ofUInt64 address)[i - r]?
    | none => bytes[i]?

namespace Filled

variable {offsets : List Nat} {address : UInt64} {bytes out : Bytes}

theorem of_foldlM (h : offsets.foldlM
      (fun bytes offset => overwrite bytes offset (Bytes.ofUInt64 address)) bytes = .ok out) :
    Filled offsets address bytes out := by
  induction offsets generalizing bytes with
  | nil =>
    obtain rfl := Except.ok.inj h
    exact ⟨rfl, fun _ => rfl⟩
  | cons r rest ih =>
    rw [List.foldlM_cons] at h
    obtain ⟨middle, hmiddle, hrest⟩ := Except.bind_eq_ok.mp h
    obtain ⟨hlength, hbyte⟩ := ih hrest
    refine ⟨hlength.trans (length_overwrite hmiddle), fun i => ?_⟩
    rw [hbyte, lastCovering?_cons]
    cases lastCovering? rest i with
    | some s => rfl
    | none =>
      have hstep := getElem?_overwrite hmiddle i
      rw [Bytes.length_ofUInt64] at hstep
      by_cases hcovers : r ≤ i ∧ i < r + 8
      · simpa [hcovers] using hstep
      · simpa [hcovers] using hstep

theorem unique {out' : Bytes} (h : Filled offsets address bytes out)
    (h' : Filled offsets address bytes out') : out = out' :=
  List.ext_getElem? fun i => (h.byte i).trans (h'.byte i).symm

/-- Bytes outside every open address are kept. -/
theorem kept (h : Filled offsets address bytes out) {i : Nat}
    (hi : ∀ r ∈ offsets, i < r ∨ r + 8 ≤ i) : out[i]? = bytes[i]? := by
  have hnone : lastCovering? offsets i = none := by
    refine List.find?_eq_none.mpr fun r hr => ?_
    have hout := hi r (List.mem_reverse.mp hr)
    simp only [decide_eq_true_eq]
    omega
  rw [h.byte, hnone]

/-- Open addresses that do not overlap are all filled in. -/
theorem window (h : Filled offsets address bytes out)
    (apart : offsets.Pairwise fun r s => r + 8 ≤ s ∨ s + 8 ≤ r) {r : Nat} (hr : r ∈ offsets) :
    (out.drop r).take 8 = Bytes.ofUInt64 address := by
  apply List.ext_getElem?
  intro k
  rw [List.getElem?_take, List.getElem?_drop]
  split
  next hk =>
    have hlast := lastCovering?_of_apart apart hr ⟨Nat.le_add_right r k, by omega⟩
    have hbyte := h.byte (r + k)
    rw [hlast] at hbyte
    rw [hbyte]
    exact congrArg (fun j => (Bytes.ofUInt64 address)[j]?) (Nat.add_sub_cancel_left ..)
  next hk => rw [List.getElem?_eq_none (by rw [Bytes.length_ofUInt64]; omega)]

end Filled

theorem filled_of_patch {code : MachineCode} {address : UInt64} {bytes : Bytes}
    (h : code.patch address = .ok { code with bytes }) :
    Filled code.relocations address code.bytes bytes := by
  obtain ⟨out, hout, h⟩ := Except.bind_eq_ok.mp h
  obtain rfl : out = bytes := congrArg MachineCode.bytes (Except.ok.inj h)
  exact .of_foldlM hout

theorem exists_foldlM_overwrite {offsets : List Nat} {bytes : Bytes}
    (h : ∀ r ∈ offsets, r + 8 ≤ bytes.length) (address : UInt64) :
    ∃ out, offsets.foldlM
      (fun bytes offset => overwrite bytes offset (Bytes.ofUInt64 address)) bytes = .ok out := by
  induction offsets generalizing bytes with
  | nil => exact ⟨bytes, rfl⟩
  | cons r rest ih =>
    obtain ⟨middle, hmiddle⟩ : ∃ middle, overwrite bytes r (Bytes.ofUInt64 address) = .ok middle := by
      refine ⟨_, if_pos ?_⟩
      rw [Bytes.length_ofUInt64]
      exact h r List.mem_cons_self
    obtain ⟨out, hout⟩ := ih fun s hs => by
      rw [length_overwrite hmiddle]
      exact h s (List.mem_cons_of_mem _ hs)
    exact ⟨out, by rw [List.foldlM_cons, hmiddle]; exact hout⟩

/-- Code whose open addresses lie inside it can be placed anywhere. -/
theorem patch_of_inside {code : MachineCode}
    (h : ∀ r ∈ code.relocations, r + 8 ≤ code.bytes.length) (address : UInt64) :
    ∃ bytes, code.patch address = .ok { code with bytes } := by
  obtain ⟨bytes, hbytes⟩ := exists_foldlM_overwrite h address
  refine ⟨bytes, ?_⟩
  rw [MachineCode.patch, hbytes]
  rfl

/-! Code of programs. -/

theorem relocations_of_generate {p : Program} {env : Environment} {policy : EndOfInput}
    {code : MachineCode} (h : generate p env policy = .ok code) :
    code.entry = 0 ∧ ∀ r ∈ code.relocations, r + 8 ≤ code.bytes.length := by
  obtain ⟨⟨f, d⟩, -, hrest⟩ := Except.bind_eq_ok.mp h
  simp only at hrest
  split at hrest
  next => simp at hrest
  next a ha =>
    obtain rfl := Except.ok.inj hrest
    exact ⟨rfl, relocations_inside ha⟩

end Native

end TapeLang
