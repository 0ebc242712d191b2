import TapeLang.Proofs.Assembly.Control
import TapeLang.Proofs.X86.Regions

/-!
# Saving registers

Pushing registers lengthens what the stack holds by their words, the last one first; popping takes
words off again.
-/

namespace TapeLang

namespace X86

/-- The stack from its pointer on is `frame`; `low` is what lies below. -/
structure StackAt (base : UInt64) (low frame : Bytes) (c : Core) : Prop where
  region : c.memory.stack = ⟨base, (low ++ frame).toArray⟩
  top : c.regs.rsp = base + UInt64.ofNat low.length
  fits : (low ++ frame).length ≤ UInt64.size

namespace StackAt

variable {base : UInt64} {low frame : Bytes} {c : Core}

/-- A word goes where the stack has room for it. -/
theorem storeWord? (h : StackAt base low frame c) (sep : c.memory.Separate) (room : 8 ≤ low.length)
    (w : UInt64) :
    ∃ low', low'.length + 8 = low.length ∧ c.regs.rsp - 8 = base + UInt64.ofNat low'.length ∧
      c.memory.storeWord? (c.regs.rsp - 8) w =
        some { c.memory with stack := ⟨base, (low' ++ (Bytes.ofUInt64 w ++ frame)).toArray⟩ } := by
  have hcut : low.take (low.length - 8) ++ low.drop (low.length - 8) = low := List.take_append_drop ..
  generalize hlow : low.take (low.length - 8) = low' at hcut
  generalize hold : low.drop (low.length - 8) = old at hcut
  have hlength : low'.length + 8 = low.length := by
    rw [← hlow, List.length_take]
    omega
  have hlength' : old.length = 8 := by
    rw [← hold, List.length_drop]
    omega
  have htop : c.regs.rsp - 8 = base + UInt64.ofNat low'.length := by
    rw [h.top, ← hlength, UInt64.ofNat_add]
    have h8 : UInt64.ofNat 8 = 8 := rfl
    grind
  have hregion : c.memory.area .stack = ⟨base, (low' ++ old ++ frame).toArray⟩ := by
    rw [hcut]
    exact h.region
  have hfits : (low' ++ old ++ frame).length ≤ UInt64.size := by
    rw [hcut]
    exact h.fits
  refine ⟨low', hlength, htop, ?_⟩
  rw [htop, Memory.storeWord?_area sep hregion hfits hlength']
  simp [Memory.replace]

theorem loadWord? {w : UInt64} (h : StackAt base low (Bytes.ofUInt64 w ++ frame) c)
    (sep : c.memory.Separate) : c.memory.loadWord? c.regs.rsp = some w := by
  have hregion : c.memory.area .stack = ⟨base, (low ++ Bytes.ofUInt64 w ++ frame).toArray⟩ := by
    rw [List.append_assoc]
    exact h.region
  have hfits : (low ++ Bytes.ofUInt64 w ++ frame).length ≤ UInt64.size := by
    rw [List.append_assoc]
    exact h.fits
  rw [h.top, Memory.loadWord?_area sep hregion hfits]

/-- The regions stay apart when the stack is overwritten. -/
theorem separate (h : StackAt base low frame c) (sep : c.memory.Separate) {bytes : Bytes}
    (hlength : bytes.length = (low ++ frame).length) :
    Memory.Separate { c.memory with stack := ⟨base, bytes.toArray⟩ } := by
  have hstack : c.memory.area .stack = ⟨base, (low ++ frame).toArray⟩ := h.region
  exact sep.replace (k := .stack) (g := ⟨base, bytes.toArray⟩) (by rw [hstack])
    (by rw [hstack, List.size_toArray, List.size_toArray, hlength])

end StackAt

/-- Two cores that differ in the stack and the stack pointer at most. -/
structure SameButStack (c c' : Core) : Prop where
  tape : c'.memory.tape = c.memory.tape
  context : c'.memory.context = c.memory.context
  regs : ∀ r, r ≠ .rsp → c'.regs.get r = c.regs.get r

theorem SameButStack.trans {c c' c'' : Core} (h : SameButStack c c') (h' : SameButStack c' c'') :
    SameButStack c c'' :=
  ⟨h'.tape.trans h.tape, h'.context.trans h.context,
    fun r hr => (h'.regs r hr).trans (h.regs r hr)⟩

theorem StackAt.push {base : UInt64} {low frame : Bytes} {c : Core} (h : StackAt base low frame c)
    (sep : c.memory.Separate) (room : 8 ≤ low.length) (r : Reg) :
    ∃ low' c', c.execute? (.push r) = some c' ∧ low'.length + 8 = low.length ∧
      StackAt base low' (Bytes.ofUInt64 (c.regs.get r) ++ frame) c' ∧ c'.memory.Separate ∧
      SameButStack c c' := by
  obtain ⟨low', hlength, htop, hstore⟩ := h.storeWord? sep room (c.regs.get r)
  have hsame : (low' ++ (Bytes.ofUInt64 (c.regs.get r) ++ frame)).length = (low ++ frame).length := by
    simp only [List.length_append, Bytes.length_ofUInt64]
    omega
  refine ⟨low', _, Core.execute?_push hstore, hlength, ⟨rfl, htop, ?_⟩, h.separate sep hsame,
    rfl, rfl, ?_⟩
  · rw [hsame]
    exact h.fits
  · intro r' hr'
    exact Registers.get_set_of_ne _ _ hr'

end X86

namespace Assembly

open X86

/-- The words of some registers, in order. -/
def wordsOf (rs : List Reg) (value : Reg → UInt64) : Bytes :=
  rs.flatMap fun r => Bytes.ofUInt64 (value r)

theorem length_wordsOf (rs : List Reg) (value : Reg → UInt64) :
    (wordsOf rs value).length = 8 * rs.length := by
  induction rs with
  | nil => rfl
  | cons r rs ih =>
    rw [wordsOf, List.flatMap_cons, List.length_append, Bytes.length_ofUInt64, ← wordsOf, ih,
      List.length_cons]
    omega

namespace Leads

variable {L : Loaded} {base : UInt64} {low frame : Bytes} {c : Core} {rs : List Reg}

theorem pushes {value : Reg → UInt64} (xs : List (Item Label)) (hrs : .rsp ∉ rs)
    (hvalue : ∀ r ∈ rs, c.regs.get r = value r)
    (h : StackAt base low frame c) (sep : c.memory.Separate) (room : 8 * rs.length ≤ low.length) :
    ∃ low' c', Leads L rs.length (rs.map (fun r => .plain (.push r)) ++ xs) c xs c' ∧
      low'.length + 8 * rs.length = low.length ∧
      StackAt base low' (wordsOf rs.reverse value ++ frame) c' ∧ c'.memory.Separate ∧
      SameButStack c c' := by
  induction rs generalizing low frame c with
  | nil => exact ⟨low, c, .refl, rfl, h, sep, rfl, rfl, fun r _ => rfl⟩
  | cons r rs ih =>
    rw [List.mem_cons, not_or] at hrs
    rw [List.length_cons] at room ⊢
    obtain ⟨low₁, c₁, hpush, hlength, hstack, hsep, hsame⟩ := h.push sep (by omega) r
    have hvalue₁ : ∀ r' ∈ rs, c₁.regs.get r' = value r' := by
      intro r' hr'
      rw [hsame.regs r' fun heq => hrs.2 (heq ▸ hr'), hvalue r' (List.mem_cons_of_mem _ hr')]
    obtain ⟨low', c', hlead, hlength', hstack', hsep', hsame'⟩ :=
      ih hrs.2 hvalue₁ hstack hsep (by omega)
    refine ⟨low', c', .plain rfl hpush hlead, by omega, ?_, hsep', hsame.trans hsame'⟩
    rw [hvalue r List.mem_cons_self] at hstack'
    simpa [wordsOf] using hstack'

theorem pops {value : Reg → UInt64} (xs : List (Item Label)) (hrs : .rsp ∉ rs)
    (h : StackAt base low (wordsOf rs value ++ frame) c) (sep : c.memory.Separate) :
    ∃ low' c', Leads L rs.length (rs.map (fun r => .plain (.pop r)) ++ xs) c xs c' ∧
      StackAt base low' frame c' ∧ c'.memory = c.memory ∧
      (∀ r ∈ rs, c'.regs.get r = value r) ∧
      ∀ r, r ∉ rs → r ≠ .rsp → c'.regs.get r = c.regs.get r := by
  induction rs generalizing low c with
  | nil => exact ⟨low, c, .refl, h, rfl, by simp, fun r _ _ => rfl⟩
  | cons r rs ih =>
    rw [List.mem_cons, not_or] at hrs
    have hcons : wordsOf (r :: rs) value ++ frame =
        Bytes.ofUInt64 (value r) ++ (wordsOf rs value ++ frame) := by
      simp [wordsOf]
    rw [hcons] at h
    have hpop := Core.execute?_pop (r := r) (h.loadWord? sep)
    have hstack : StackAt base (low ++ Bytes.ofUInt64 (value r)) (wordsOf rs value ++ frame)
        ((c.setReg .rsp (c.regs.rsp + 8)).setReg r (value r)) := by
      refine ⟨by rw [List.append_assoc]; exact h.region, ?_, by rw [List.append_assoc]; exact h.fits⟩
      have hrsp : ((c.regs.set .rsp (c.regs.rsp + 8)).set r (value r)).get .rsp = c.regs.rsp + 8 := by
        rw [Registers.get_set_of_ne _ _ hrs.1, Registers.get_set_self]
      refine hrsp.trans ?_
      rw [h.top, List.length_append, Bytes.length_ofUInt64, UInt64.ofNat_add, UInt64.add_assoc]
      rfl
    obtain ⟨low', c', hlead, hstack', hmemory, hvalues, hkeep⟩ := ih hrs.2 hstack sep
    refine ⟨low', c', .plain rfl hpop hlead, hstack', hmemory, ?_, ?_⟩
    · intro r' hr'
      by_cases hmem : r' ∈ rs
      · exact hvalues r' hmem
      · obtain rfl : r' = r := (List.mem_cons.mp hr').resolve_right hmem
        rw [hkeep r' hmem (Ne.symm hrs.1)]
        exact Registers.get_set_self ..
    · intro r' hr' hrsp
      rw [List.mem_cons, not_or] at hr'
      rw [hkeep r' hr'.2 hrsp]
      exact (Registers.get_set_of_ne _ _ hr'.1).trans (Registers.get_set_of_ne _ _ hrsp)

end Leads

end Assembly

end TapeLang
