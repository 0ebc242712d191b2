import TapeLang.Assembly.Assemble
import TapeLang.X86.Arithmetic
import TapeLang.Proofs.X86.RoundTrip

/-!
# What items are assembled to

Every item but a binding stands for one instruction, which depends on where it is and on where its
label was bound last. The code is the encodings of these instructions, one behind the other.
-/

namespace TapeLang

namespace Assembly

open X86

@[simp] theorem sizes_nil : sizes [] = 0 := rfl

@[simp] theorem sizes_cons (item : Item Label) (rest : List (Item Label)) :
    sizes (item :: rest) = item.size + sizes rest := rfl

@[simp] theorem sizes_append (xs ys : List (Item Label)) :
    sizes (xs ++ ys) = sizes xs + sizes ys := by
  induction xs with
  | nil => simp
  | cons item rest ih => simp [ih, Nat.add_assoc]

@[simp] theorem size_bind (l : Label) : (Item.bind l).size = 0 := rfl

/-- The labels some items bind, in order. -/
def boundLabels (items : List (Item Label)) : List Label :=
  items.filterMap fun
    | .bind l => some l
    | _ => none

@[simp] theorem boundLabels_nil : boundLabels [] = [] := rfl

@[simp] theorem boundLabels_bind (l : Label) (rest : List (Item Label)) :
    boundLabels (.bind l :: rest) = l :: boundLabels rest := rfl

@[simp] theorem boundLabels_append (xs ys : List (Item Label)) :
    boundLabels (xs ++ ys) = boundLabels xs ++ boundLabels ys :=
  List.filterMap_append

private theorem boundLabels_cons_of_ne {item : Item Label} (h : ∀ l, item ≠ .bind l)
    (rest : List (Item Label)) : boundLabels (item :: rest) = boundLabels rest := by
  cases item with
  | bind l => exact absurd rfl (h l)
  | plain i => rfl
  | tapeAddress dst => rfl
  | jump l => rfl
  | branch c l => rfl

/-! Where labels are bound. -/

/-- The end of the code so far and the labels bound in it. -/
structure Layout where
  offset : Nat
  bound : Array (Option Nat)

namespace Layout

def start (labels : Nat) : Layout :=
  ⟨0, Array.replicate labels none⟩

def place : Layout → Item Label → Layout
  | ⟨offset, bound⟩, .bind l => ⟨offset, bound.setIfInBounds l (some offset)⟩
  | ⟨offset, bound⟩, item => ⟨offset + item.size, bound⟩

end Layout

/-- Where each of `labels` labels was bound last. -/
def bindings (labels : Nat) (items : List (Item Label)) : Array (Option Nat) :=
  (items.foldl Layout.place (.start labels)).bound

private theorem place_of_ne {item : Item Label} (h : ∀ l, item ≠ .bind l) (layout : Layout) :
    layout.place item = ⟨layout.offset + item.size, layout.bound⟩ := by
  cases item with
  | bind l => exact absurd rfl (h l)
  | plain i => rfl
  | tapeAddress dst => rfl
  | jump l => rfl
  | branch c l => rfl

theorem offset_place (layout : Layout) (item : Item Label) :
    (layout.place item).offset = layout.offset + item.size := by
  cases item <;> rfl

theorem size_bound_place (layout : Layout) (item : Item Label) :
    (layout.place item).bound.size = layout.bound.size := by
  cases item <;> simp [Layout.place]

private theorem offset_foldl_place (items : List (Item Label)) (layout : Layout) :
    (items.foldl Layout.place layout).offset = layout.offset + sizes items := by
  induction items generalizing layout with
  | nil => rfl
  | cons item rest ih =>
    rw [List.foldl_cons, ih, offset_place, sizes_cons, Nat.add_assoc]

private theorem size_bound_foldl_place (items : List (Item Label)) (layout : Layout) :
    (items.foldl Layout.place layout).bound.size = layout.bound.size := by
  induction items generalizing layout with
  | nil => rfl
  | cons item rest ih => rw [List.foldl_cons, ih, size_bound_place]

/-- Items that do not bind a label leave it where it was. -/
theorem bound_foldl_place_of_not_mem {items : List (Item Label)} {l : Label}
    (h : l ∉ boundLabels items) (layout : Layout) :
    (items.foldl Layout.place layout).bound.getD l none = layout.bound.getD l none := by
  induction items generalizing layout with
  | nil => rfl
  | cons item rest ih =>
    by_cases hbind : ∃ k, item = .bind k
    · obtain ⟨k, rfl⟩ := hbind
      rw [boundLabels_bind, List.mem_cons, not_or] at h
      rw [List.foldl_cons, ih h.2]
      simp [Layout.place, Array.getD_eq_getD_getElem?, Array.getElem?_setIfInBounds_ne (Ne.symm h.1)]
    · have hne : ∀ k, item ≠ .bind k := fun k hk => hbind ⟨k, hk⟩
      rw [boundLabels_cons_of_ne hne] at h
      rw [List.foldl_cons, ih h, place_of_ne hne]

@[simp] theorem size_bindings (labels : Nat) (items : List (Item Label)) :
    (bindings labels items).size = labels := by
  rw [bindings, size_bound_foldl_place]
  simp [Layout.start]

/-- A label counts where it is bound last. -/
theorem bindings_eq_some {labels : Nat} {items front back : List (Item Label)} {l : Label}
    (h : items = front ++ .bind l :: back) (last : l ∉ boundLabels back) (hl : l < labels) :
    (bindings labels items).getD l none = some (sizes front) := by
  have hoffset := offset_foldl_place front (.start labels)
  have hsize := size_bound_foldl_place front (.start labels)
  rw [bindings, h, List.foldl_append, List.foldl_cons, bound_foldl_place_of_not_mem last]
  rcases hlayout : front.foldl Layout.place (.start labels) with ⟨offset, bound⟩
  rw [hlayout] at hoffset hsize
  simp only [Layout.start, Array.size_replicate, Nat.zero_add] at hoffset hsize
  simp [Layout.place, Array.getD_eq_getD_getElem?, hsize, hl, hoffset]

/-! The instruction of an item. -/

/-- The instruction an item stands for at an offset. The tape is at `address`. -/
def Item.resolve (bound : Array (Option Nat)) (address : UInt64) (offset : Nat) :
    Item Label → Except AssembleError (Option Instr)
  | .bind _ => .ok none
  | .plain i => .ok (some i)
  | .tapeAddress dst => .ok (some (.movImm64 dst address))
  | .jump l => (displacementTo bound l (offset + 1)).map fun rel => some (.jmp rel)
  | .branch c l => (displacementTo bound l (offset + 2)).map fun rel => some (.jcc c rel)

/-- The bytes of an instruction, if there is one. -/
def encodeOption (i? : Option Instr) : Bytes :=
  i?.elim [] Instr.encode

/-- The code of items that start at an offset. -/
def codeBytes (bound : Array (Option Nat)) (address : UInt64) :
    (offset : Nat) → List (Item Label) → Except AssembleError Bytes
  | _, [] => .ok []
  | offset, item :: rest =>
    (item.resolve bound address offset).bind fun i? =>
      (codeBytes bound address (offset + item.size) rest).map fun bytes => encodeOption i? ++ bytes

private theorem length_encode_movImm64 (dst : Reg) (a b : UInt64) :
    (Instr.movImm64 dst a).encode.length = (Instr.movImm64 dst b).encode.length := by
  simp [Instr.encode]

theorem length_encodeOption {bound : Array (Option Nat)} {address : UInt64} {offset : Nat}
    {item : Item Label} {i? : Option Instr} (h : item.resolve bound address offset = .ok i?) :
    (encodeOption i?).length = item.size := by
  cases item with
  | bind l =>
    obtain rfl := Except.ok.inj h
    rfl
  | plain i =>
    obtain rfl := Except.ok.inj h
    rfl
  | tapeAddress dst =>
    obtain rfl := Except.ok.inj h
    exact length_encode_movImm64 dst address 0
  | jump l =>
    obtain ⟨rel, -, rfl⟩ := Except.map_eq_ok.mp h
    simp [encodeOption, Item.size, Item.template, Instr.encode]
  | branch c l =>
    obtain ⟨rel, -, rfl⟩ := Except.map_eq_ok.mp h
    simp [encodeOption, Item.size, Item.template, Instr.encode]

theorem length_codeBytes {bound : Array (Option Nat)} {address : UInt64} {offset : Nat}
    {items : List (Item Label)} {bytes : Bytes}
    (h : codeBytes bound address offset items = .ok bytes) : bytes.length = sizes items := by
  induction items generalizing offset bytes with
  | nil =>
    obtain rfl := Except.ok.inj h
    rfl
  | cons item rest ih =>
    obtain ⟨i?, hi, hrest⟩ := Except.bind_eq_ok.mp h
    obtain ⟨more, hmore, rfl⟩ := Except.map_eq_ok.mp hrest
    rw [List.length_append, length_encodeOption hi, ih hmore, sizes_cons]

/-- The code of items in the middle: what comes in front of it, its own bytes, and what follows. -/
theorem codeBytes_append {bound : Array (Option Nat)} {address : UInt64} {offset : Nat}
    {xs ys : List (Item Label)} {bytes : Bytes} :
    codeBytes bound address offset (xs ++ ys) = .ok bytes ↔
      ∃ front back, codeBytes bound address offset xs = .ok front ∧
        codeBytes bound address (offset + sizes xs) ys = .ok back ∧ bytes = front ++ back := by
  induction xs generalizing offset bytes with
  | nil => simp [codeBytes]
  | cons item rest ih =>
    rw [List.cons_append, sizes_cons, ← Nat.add_assoc]
    constructor
    · intro h
      obtain ⟨i?, hi, hrest⟩ := Except.bind_eq_ok.mp h
      obtain ⟨more, hmore, rfl⟩ := Except.map_eq_ok.mp hrest
      obtain ⟨front, back, hfront, hback, rfl⟩ := ih.mp hmore
      refine ⟨encodeOption i? ++ front, back, ?_, hback, by simp⟩
      exact Except.bind_eq_ok.mpr ⟨i?, hi, Except.map_eq_ok.mpr ⟨front, hfront, rfl⟩⟩
    · rintro ⟨front, back, hfront, hback, rfl⟩
      obtain ⟨i?, hi, hrest⟩ := Except.bind_eq_ok.mp hfront
      obtain ⟨more, hmore, rfl⟩ := Except.map_eq_ok.mp hrest
      refine Except.bind_eq_ok.mpr ⟨i?, hi, Except.map_eq_ok.mpr ⟨more ++ back, ?_, by simp⟩⟩
      exact ih.mpr ⟨more, back, hmore, hback, rfl⟩

/-! Where the address of the tape goes. -/

/-- Where an item at an offset leaves the address of the tape open. -/
def Item.openFields (offset : Nat) : Item Label → List Nat
  | .tapeAddress dst => [offset + (Instr.movImm64 dst 0).encode.length - 8]
  | _ => []

/-- Where items that start at an offset leave the address of the tape open. -/
def openFields : (offset : Nat) → List (Item Label) → List Nat
  | _, [] => []
  | offset, item :: rest => item.openFields offset ++ openFields (offset + item.size) rest

/-! When items have code. -/

/-- The labels some items branch to. -/
def usedLabels (items : List (Item Label)) : List Label :=
  items.filterMap fun
    | .jump l => some l
    | .branch _ l => some l
    | _ => none

@[simp] theorem usedLabels_append (xs ys : List (Item Label)) :
    usedLabels (xs ++ ys) = usedLabels xs ++ usedLabels ys :=
  List.filterMap_append

private theorem displacementTo_ok {bound : Array (Option Nat)} {l : Label} {target : Nat} (offset : Nat)
    (h : bound.getD l none = some target) (ht : target ≤ 2 ^ 31) (ho : offset + 4 ≤ 2 ^ 31) :
    ∃ rel, displacementTo bound l offset = .ok rel := by
  refine ⟨Int32.ofInt (target - (offset + 4 : Nat)), ?_⟩
  have inside : -0x80000000 ≤ (target - (offset + 4 : Nat) : Int) ∧
      (target - (offset + 4 : Nat) : Int) < 0x80000000 := by omega
  simp only [displacementTo, h]
  rw [if_pos inside]

theorem resolve_ok {bound : Array (Option Nat)} {offset : Nat} {item : Item Label}
    (used : ∀ l ∈ usedLabels [item], ∃ target, bound.getD l none = some target ∧ target ≤ 2 ^ 31)
    (ho : offset + item.size ≤ 2 ^ 31) (address : UInt64) :
    ∃ i?, item.resolve bound address offset = .ok i? := by
  cases item with
  | bind l => exact ⟨none, rfl⟩
  | plain i => exact ⟨some i, rfl⟩
  | tapeAddress dst => exact ⟨some (.movImm64 dst address), rfl⟩
  | jump l =>
    obtain ⟨target, hl, ht⟩ := used l (by simp [usedLabels])
    simp only [Item.size, Item.template, Instr.encode, List.length_cons, length_int32Bytes] at ho
    obtain ⟨rel, hrel⟩ := displacementTo_ok (offset + 1) hl ht (by omega)
    exact ⟨some (.jmp rel), by simp [Item.resolve, hrel, Except.map]⟩
  | branch c l =>
    obtain ⟨target, hl, ht⟩ := used l (by simp [usedLabels])
    simp only [Item.size, Item.template, Instr.encode, List.length_cons, length_int32Bytes] at ho
    obtain ⟨rel, hrel⟩ := displacementTo_ok (offset + 2) hl ht (by omega)
    exact ⟨some (.jcc c rel), by simp [Item.resolve, hrel, Except.map]⟩

theorem codeBytes_ok {bound : Array (Option Nat)} {offset : Nat} {items : List (Item Label)}
    (used : ∀ l ∈ usedLabels items, ∃ target, bound.getD l none = some target ∧ target ≤ 2 ^ 31)
    (ho : offset + sizes items ≤ 2 ^ 31) (address : UInt64) :
    ∃ bytes, codeBytes bound address offset items = .ok bytes := by
  induction items generalizing offset with
  | nil => exact ⟨[], rfl⟩
  | cons item rest ih =>
    have hsplit : usedLabels (item :: rest) = usedLabels [item] ++ usedLabels rest :=
      usedLabels_append [item] rest
    rw [hsplit] at used
    rw [sizes_cons] at ho
    have hitem : offset + item.size ≤ 2 ^ 31 := by omega
    have hrest : offset + item.size + sizes rest ≤ 2 ^ 31 := by omega
    obtain ⟨i?, hi⟩ := resolve_ok (fun l hl => used l (List.mem_append_left _ hl)) hitem address
    obtain ⟨bytes, hbytes⟩ := ih (fun l hl => used l (List.mem_append_right _ hl)) hrest
    exact ⟨encodeOption i? ++ bytes,
      Except.bind_eq_ok.mpr ⟨i?, hi, Except.map_eq_ok.mpr ⟨bytes, hbytes, rfl⟩⟩⟩

/-- A bound label has a last binding. -/
theorem exists_last_bind {items : List (Item Label)} {l : Label} (h : l ∈ boundLabels items) :
    ∃ front back, items = front ++ .bind l :: back ∧ l ∉ boundLabels back := by
  induction items with
  | nil => simp at h
  | cons item rest ih =>
    by_cases hrest : l ∈ boundLabels rest
    · obtain ⟨front, back, rfl, hlast⟩ := ih hrest
      exact ⟨item :: front, back, rfl, hlast⟩
    · cases item with
      | bind k =>
        obtain rfl : l = k := (List.mem_cons.mp h).resolve_right hrest
        exact ⟨[], rest, rfl, hrest⟩
      | plain i => exact absurd h hrest
      | tapeAddress dst => exact absurd h hrest
      | jump k => exact absurd h hrest
      | branch c k => exact absurd h hrest

theorem bindings_of_mem {labels : Nat} {items : List (Item Label)} {l : Label}
    (h : l ∈ boundLabels items) (hl : l < labels) :
    ∃ target, (bindings labels items).getD l none = some target ∧ target ≤ sizes items := by
  obtain ⟨front, back, hitems, hlast⟩ := exists_last_bind h
  refine ⟨sizes front, bindings_eq_some hitems hlast hl, ?_⟩
  rw [hitems, sizes_append]
  exact Nat.le_add_right _ _

theorem labelOffsets_ok {bound : Array (Option Nat)}
    (h : ∀ l < bound.size, ∃ target, bound.getD l none = some target) :
    ∃ offsets, labelOffsets bound = .ok offsets := by
  have all : ∀ x ∈ bound.toList.zipIdx, x.1 ≠ none := by
    rintro ⟨offset?, l⟩ hx
    have hl : bound[l]? = some offset? := by simpa using List.mk_mem_zipIdx_iff_getElem?.mp hx
    obtain ⟨target, ht⟩ := h l (Array.getElem?_eq_some_iff.mp hl).1
    rw [Array.getD_eq_getD_getElem?, hl, Option.getD_some] at ht
    simp [ht]
  unfold labelOffsets
  generalize bound.toList.zipIdx = xs at all ⊢
  induction xs with
  | nil => exact ⟨[], rfl⟩
  | cons x xs ih =>
    obtain ⟨offset?, l⟩ := x
    obtain ⟨offsets, hoffsets⟩ := ih fun y hy => all y (List.mem_cons_of_mem _ hy)
    cases offset? with
    | none => exact absurd rfl (all (none, l) List.mem_cons_self)
    | some offset =>
      refine ⟨offset :: offsets, ?_⟩
      simp [List.mapM_cons, hoffsets, bind, Except.bind, pure, Except.pure]

/-! Where branches land. -/

theorem signExtend_ofInt_sub {a t : Nat} (h : -0x80000000 ≤ (t - a : Int))
    (h' : (t - a : Int) < 0x80000000) :
    signExtend (Int32.ofInt (t - a)) = UInt64.ofNat t - UInt64.ofNat a := by
  have hlow : Int32.minValue.toInt ≤ (t - a : Int) := h
  have hhigh : (t - a : Int) ≤ Int32.maxValue.toInt := Int.le_of_lt_add_one h'
  rw [signExtend, Int32.toInt64_ofInt hlow hhigh]
  apply UInt64.toBitVec_inj.mp
  rw [UInt64.toBitVec_sub, UInt64.toBitVec_ofNat', UInt64.toBitVec_ofNat']
  simp

theorem signExtend_ofNat {n : Nat} (h : n < 2 ^ 31) :
    signExtend (Int32.ofInt n) = UInt64.ofNat n := by
  have hsub := signExtend_ofInt_sub (a := 0) (t := n) (by omega) (by omega)
  simpa using hsub

/-- A displacement leads from the end of its field to the label. -/
theorem displacementTo_lands {bound : Array (Option Nat)} {l : Label} {offset : Nat} {rel : Int32}
    (h : displacementTo bound l offset = .ok rel) :
    ∃ target, bound.getD l none = some target ∧
      UInt64.ofNat (offset + 4) + signExtend rel = UInt64.ofNat target := by
  simp only [displacementTo] at h
  split at h
  next => simp at h
  next target ht =>
    split at h
    next inside =>
      refine ⟨target, ht, ?_⟩
      rw [← Except.ok.inj h, signExtend_ofInt_sub inside.1 inside.2]
      grind
    next => simp at h

end Assembly

end TapeLang
