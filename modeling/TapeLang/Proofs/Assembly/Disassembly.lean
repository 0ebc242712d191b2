import TapeLang.Assembly.Listing
import TapeLang.X86.Disassembly
import TapeLang.Proofs.Assembly.Patching

/-!
# Code is read back as it was assembled

A sweep over assembled code meets the instructions of the listing in order, and each of them ends
where the listing said it would.
-/

namespace TapeLang

open X86

namespace X86

/-- A sweep reads the instruction at the front and goes on behind it. -/
theorem sweep_encode {i : Instr} (h : i.breach? = none) {bound : Nat} (offset : Nat) {rest : Bytes}
    (hbound : (i.encode ++ rest).length ≤ bound) :
    ∃ bound', rest.length ≤ bound' ∧
      sweep bound offset (i.encode ++ rest) =
        (sweep bound' (offset + i.encode.length) rest).map ((i, offset + i.encode.length) :: ·) := by
  have hpos := length_encode_pos h
  have hdecode := decode_encode h rest
  have hlength : (i.encode ++ rest).length - rest.length = i.encode.length := by
    rw [List.length_append, Nat.add_sub_cancel]
  rw [List.length_append] at hbound
  cases bound with
  | zero => omega
  | succ bound =>
    refine ⟨bound, by omega, ?_⟩
    cases hbytes : i.encode ++ rest with
    | nil =>
      have := congrArg List.length hbytes
      rw [List.length_append, List.length_nil] at this
      omega
    | cons first more =>
      rw [hbytes] at hdecode hlength
      simp only [sweep, hdecode, hlength]

/-- Where instructions end, if they start at an offset. -/
def endOf (offset : Nat) (instrs : List (Instr × Nat)) : Nat :=
  instrs.foldl (fun _ (_, stop) => stop) offset

/-- A disassembly lists an instruction at an offset. -/
def Listed (bytes : Bytes) (offset : Nat) (i : Instr) (size : Nat) : Prop :=
  ∃ before behind, disassemble bytes = some (before ++ (i, offset + size) :: behind) ∧
    endOf 0 before = offset

end X86

namespace Assembly

/-! Labels. -/

theorem map_some_of_mapM {xs : List (Option Nat)} {start : Nat} {offsets : List Nat}
    (h : (xs.zipIdx start).mapM (fun (offset?, l) =>
      match offset? with
      | some offset => Except.ok offset
      | none => .error (AssembleError.unboundLabel l)) = .ok offsets) :
    xs = offsets.map some := by
  induction xs generalizing start offsets with
  | nil =>
    obtain rfl := Except.ok.inj h
    rfl
  | cons offset? xs ih =>
    rw [List.zipIdx_cons, List.mapM_cons] at h
    obtain ⟨offset, hoffset, hrest⟩ := Except.bind_eq_ok.mp h
    obtain ⟨more, hmore, hpure⟩ := Except.bind_eq_ok.mp hrest
    obtain rfl := Except.ok.inj hpure
    cases offset? with
    | none => simp at hoffset
    | some offset' =>
      obtain rfl := Except.ok.inj hoffset
      rw [List.map_cons, ← ih hmore]

/-- The offsets reported for labels are those they are bound at. -/
theorem getElem?_of_labelOffsets {bound : Array (Option Nat)} {offsets : List Nat} {l : Label}
    {target : Nat} (h : labelOffsets bound = .ok offsets) (hl : bound.getD l none = some target) :
    offsets[l]? = some target := by
  have hall : bound.toList = offsets.map some := map_some_of_mapM h
  have hget : bound[l]? = offsets[l]?.map some := by
    rw [← Array.getElem?_toList, hall, List.getElem?_map]
  rw [Array.getD_eq_getD_getElem?, hget] at hl
  cases hoffset : offsets[l]? with
  | none => simp [hoffset] at hl
  | some offset =>
    rw [hoffset] at hl
    exact hl

theorem displacementTo_eq_ok {bound : Array (Option Nat)} {l : Label} {offset : Nat} {rel : Int32}
    (h : displacementTo bound l offset = .ok rel) :
    ∃ target, bound.getD l none = some target ∧ (target : Int) = (offset + 4 : Nat) + rel.toInt := by
  simp only [displacementTo] at h
  split at h
  next => simp at h
  next target ht =>
    split at h
    next inside =>
      refine ⟨target, ht, ?_⟩
      rw [← Except.ok.inj h, Int32.toInt_ofInt_of_le inside.1 inside.2]
      omega
    next => simp at h

/-! Single items. -/

theorem breach?_of_resolve {bound : Array (Option Nat)} {address : UInt64} {offset : Nat}
    {item : Item Label} {i? : Option Instr} (hbreach : item.breach? = none)
    (h : item.resolve bound address offset = .ok i?) : ∀ i ∈ i?, i.breach? = none := by
  rintro i rfl
  cases item with
  | bind l => cases h
  | plain j =>
    obtain rfl := Option.some.inj (Except.ok.inj h)
    exact hbreach
  | tapeAddress dst =>
    obtain rfl := Option.some.inj (Except.ok.inj h)
    rfl
  | jump l =>
    obtain ⟨rel, -, hi⟩ := Except.map_eq_ok.mp h
    obtain rfl := Option.some.inj hi
    rfl
  | branch c l =>
    obtain ⟨rel, -, hi⟩ := Except.map_eq_ok.mp h
    obtain rfl := Option.some.inj hi
    rfl

theorem sweep_encodeOption {i? : Option Instr} (h : ∀ i ∈ i?, i.breach? = none) {bound : Nat}
    (offset : Nat) {rest : Bytes} (hbound : (encodeOption i? ++ rest).length ≤ bound) :
    ∃ bound', rest.length ≤ bound' ∧
      sweep bound offset (encodeOption i? ++ rest) =
        (sweep bound' (offset + (encodeOption i?).length) rest).map
          (i?.toList.map (·, offset + (encodeOption i?).length) ++ ·) := by
  cases i? with
  | none => exact ⟨bound, hbound, by simp [encodeOption]⟩
  | some i => exact sweep_encode (h i rfl) offset hbound

/-! Items in a row. -/

section

variable {bound : Array (Option Nat)} {address : UInt64} {front back : List (Item Label)}
  {item : Item Label}

/-- A sweep reads the code of items and goes on behind it. -/
theorem sweep_items {offset fuel : Nat} {bytes rest : Bytes}
    (hbreach : ∀ item ∈ front, item.breach? = none)
    (hbytes : codeBytes bound address offset front = .ok bytes)
    (hfuel : (bytes ++ rest).length ≤ fuel) :
    ∃ instrs fuel', rest.length ≤ fuel' ∧ endOf offset instrs = offset + sizes front ∧
      sweep fuel offset (bytes ++ rest) =
        (sweep fuel' (offset + sizes front) rest).map (instrs ++ ·) := by
  induction front generalizing offset fuel bytes with
  | nil =>
    obtain rfl := Except.ok.inj hbytes
    exact ⟨[], fuel, hfuel, rfl, by simp⟩
  | cons item front ih =>
    rw [List.forall_mem_cons] at hbreach
    obtain ⟨i?, hi, hrest⟩ := Except.bind_eq_ok.mp hbytes
    obtain ⟨more, hmore, rfl⟩ := Except.map_eq_ok.mp hrest
    rw [List.append_assoc] at hfuel ⊢
    obtain ⟨fuel₁, hfuel₁, hsweep⟩ :=
      sweep_encodeOption (breach?_of_resolve hbreach.1 hi) offset hfuel
    obtain ⟨instrs, fuel', hfuel', hend, hsweep'⟩ := ih hbreach.2 hmore hfuel₁
    rw [length_encodeOption hi, hsweep', Option.map_map] at hsweep
    refine ⟨i?.toList.map (·, offset + item.size) ++ instrs, fuel', hfuel', ?_, ?_⟩
    · have hsize := length_encodeOption hi
      rw [sizes_cons, ← Nat.add_assoc, ← hend]
      cases i? with
      | none =>
        have hzero : item.size = 0 := hsize.symm
        rw [hzero]
        rfl
      | some i => rfl
    · rw [hsweep, sizes_cons, ← Nat.add_assoc]
      congr 1
      funext instrs'
      exact (List.append_assoc ..).symm

/-- What an item of assembled code was resolved to is listed where the item is. -/
theorem listed_of_codeBytes {bytes : Bytes}
    (hbreach : ∀ x ∈ front ++ item :: back, x.breach? = none)
    (hbytes : codeBytes bound address 0 (front ++ item :: back) = .ok bytes) :
    ∃ i?, item.resolve bound address (sizes front) = .ok i? ∧
      ∀ i, i? = some i → Listed bytes (sizes front) i item.size := by
  rw [List.forall_mem_append, List.forall_mem_cons] at hbreach
  obtain ⟨before, rest, hbefore, hrest, rfl⟩ := codeBytes_append.mp hbytes
  rw [Nat.zero_add] at hrest
  obtain ⟨i?, hi, hmore⟩ := Except.bind_eq_ok.mp hrest
  obtain ⟨behind, hbehind, rfl⟩ := Except.map_eq_ok.mp hmore
  refine ⟨i?, hi, ?_⟩
  rintro i rfl
  obtain ⟨instrs, fuel, hfuel, hend, hsweep⟩ :=
    sweep_items hbreach.1 hbefore (Nat.le_refl _)
  obtain ⟨fuel', hfuel', hsweep'⟩ :=
    sweep_encodeOption (breach?_of_resolve hbreach.2.1 hi) (0 + sizes front) hfuel
  have hfuel'' : (behind ++ []).length ≤ fuel' := by rwa [List.append_nil]
  obtain ⟨instrs', fuel'', -, -, hsweep''⟩ := sweep_items hbreach.2.2 hbehind hfuel''
  refine ⟨instrs, instrs', ?_, by rw [hend, Nat.zero_add]⟩
  rw [List.append_nil] at hsweep''
  rw [disassemble, hsweep, hsweep', length_encodeOption hi, Nat.zero_add, hsweep'']
  simp [sweep]

end

/-! Listings. -/

theorem size_of_mapLabel? {α β : Type} {f : α → Option β} {i : Item α} {item : Item β}
    (h : i.mapLabel? f = some item) : i.size = item.size := by
  cases i with
  | bind l =>
    obtain ⟨k, -, rfl⟩ := Option.map_eq_some_iff.mp h
    rfl
  | plain i =>
    obtain rfl := Option.some.inj h
    rfl
  | tapeAddress dst =>
    obtain rfl := Option.some.inj h
    rfl
  | jump l =>
    obtain ⟨k, -, rfl⟩ := Option.map_eq_some_iff.mp h
    rfl
  | branch c l =>
    obtain ⟨k, -, rfl⟩ := Option.map_eq_some_iff.mp h
    rfl

namespace Listing

/-- The end of the code after each line, if the code before them ends at `offset`. -/
def offsetsFrom : (offset : Nat) → List Line → List Nat
  | _, [] => []
  | offset, line :: rest => (offset + lineSize line) :: offsetsFrom (offset + lineSize line) rest

private theorem offsets_eq_offsetsFrom (lines : List Line) : offsets lines = offsetsFrom 0 lines := by
  have hfold : ∀ (ends : Array Nat) (offset : Nat),
      (lines.foldl (fun acc line =>
        (acc.1.push (acc.2 + lineSize line), acc.2 + lineSize line)) (ends, offset)).1.toList =
        ends.toList ++ offsetsFrom offset lines := by
    induction lines with
    | nil => simp [offsetsFrom]
    | cons line rest ih =>
      intro ends offset
      rw [List.foldl_cons, ih, offsetsFrom, Array.toList_push, List.append_assoc, List.singleton_append]
  exact hfold #[] 0

/-- `ReadBack labels scope stop i i?`: of an item that ends at `stop`, the instruction `i?` is read
back. The address of the tape is left open and reads as zero. The displacement of a branch leads from
the end of the branch to the offset of its label. -/
inductive ReadBack (labels : List Nat) (scope : Scope) (stop : Nat) :
    Item String → Option Instr → Prop where
  | bind (name : String) : ReadBack labels scope stop (.bind name) none
  | plain (i : Instr) : ReadBack labels scope stop (.plain i) (some i)
  | tapeAddress (dst : Reg) :
      ReadBack labels scope stop (.tapeAddress dst) (some (.movImm64 dst 0))
  | jump {name : String} {l : Label} {target : Nat} {rel : Int32}
      (known : scope.lookup name = some l) (bound : labels[l]? = some target)
      (lands : (target : Int) = stop + rel.toInt) :
      ReadBack labels scope stop (.jump name) (some (.jmp rel))
  | branch {c : Cond} {name : String} {l : Label} {target : Nat} {rel : Int32}
      (known : scope.lookup name = some l) (bound : labels[l]? = some target)
      (lands : (target : Int) = stop + rel.toInt) :
      ReadBack labels scope stop (.branch c name) (some (.jcc c rel))

/-- `Reads labels scope next calls instrs`: of the lines in `calls`, each with the end of the code
after it, exactly the instructions `instrs` are read back, in order, each with its own end. -/
inductive Reads (labels : List Nat) :
    Scope → (next : Label) → List (Line × Nat) → List (Instr × Nat) → Prop where
  | nil (scope : Scope) (next : Label) : Reads labels scope next [] []
  | label {scope : Scope} {next : Label} {name : String} {stop : Nat} {calls : List (Line × Nat)}
      {instrs : List (Instr × Nat)}
      (rest : Reads labels ((name, next) :: scope) (next + 1) calls instrs) :
      Reads labels scope next ((.label name, stop) :: calls) instrs
  | item {scope : Scope} {next : Label} {i : Item String} {i? : Option Instr} {stop : Nat}
      {calls : List (Line × Nat)} {instrs : List (Instr × Nat)}
      (head : ReadBack labels scope stop i i?) (rest : Reads labels scope next calls instrs) :
      Reads labels scope next ((.item i, stop) :: calls) (i?.toList.map (·, stop) ++ instrs)

/-- A displacement that lands on a given offset is determined by it. -/
theorem displacement_unique {stop target target' : Nat} {rel rel' : Int32}
    (same : some target = some target') (lands : (target : Int) = stop + rel.toInt)
    (lands' : (target' : Int) = stop + rel'.toInt) : rel = rel' := by
  obtain rfl := Option.some.inj same
  exact Int32.toInt_inj.mp (by omega)

theorem ReadBack.unique {labels : List Nat} {scope : Scope} {stop : Nat} {i : Item String}
    {i? j? : Option Instr} (h : ReadBack labels scope stop i i?)
    (h' : ReadBack labels scope stop i j?) : i? = j? := by
  cases h with
  | bind name => cases h'; rfl
  | plain i => cases h'; rfl
  | tapeAddress dst => cases h'; rfl
  | jump known bound lands =>
    cases h' with
    | jump known' bound' lands' =>
      obtain rfl := Option.some.inj (known.symm.trans known')
      rw [displacement_unique (bound.symm.trans bound') lands lands']
  | branch known bound lands =>
    cases h' with
    | branch known' bound' lands' =>
      obtain rfl := Option.some.inj (known.symm.trans known')
      rw [displacement_unique (bound.symm.trans bound') lands lands']

theorem Reads.unique {labels : List Nat} {scope : Scope} {next : Label} {calls : List (Line × Nat)}
    {instrs instrs' : List (Instr × Nat)} (h : Reads labels scope next calls instrs)
    (h' : Reads labels scope next calls instrs') : instrs = instrs' := by
  induction h generalizing instrs' with
  | nil => cases h'; rfl
  | label _ ih =>
    cases h' with
    | label rest' => exact ih rest'
  | item head _ ih =>
    cases h' with
    | item head' rest' => rw [head.unique head', ih rest']

theorem readBack_of_resolve {labels : List Nat} {bound : Array (Option Nat)} {scope : Scope}
    {offset : Nat} {i : Item String} {item : Item Label} {i? : Option Instr}
    (hlabels : labelOffsets bound = .ok labels)
    (hitem : i.mapLabel? (scope.lookup ·) = some item)
    (hresolve : item.resolve bound 0 offset = .ok i?) :
    ReadBack labels scope (offset + item.size) i i? := by
  cases i with
  | bind name =>
    obtain ⟨l, -, rfl⟩ := Option.map_eq_some_iff.mp hitem
    obtain rfl := Except.ok.inj hresolve
    exact .bind name
  | plain i =>
    obtain rfl := Option.some.inj hitem
    obtain rfl := Except.ok.inj hresolve
    exact .plain i
  | tapeAddress dst =>
    obtain rfl := Option.some.inj hitem
    obtain rfl := Except.ok.inj hresolve
    exact .tapeAddress dst
  | jump name =>
    obtain ⟨l, hl, rfl⟩ := Option.map_eq_some_iff.mp hitem
    obtain ⟨rel, hrel, rfl⟩ := Except.map_eq_ok.mp hresolve
    obtain ⟨target, htarget, hlands⟩ := displacementTo_eq_ok hrel
    exact .jump hl (getElem?_of_labelOffsets hlabels htarget) hlands
  | branch c name =>
    obtain ⟨l, hl, rfl⟩ := Option.map_eq_some_iff.mp hitem
    obtain ⟨rel, hrel, rfl⟩ := Except.map_eq_ok.mp hresolve
    obtain ⟨target, htarget, hlands⟩ := displacementTo_eq_ok hrel
    exact .branch hl (getElem?_of_labelOffsets hlabels htarget) hlands

/-- The code of lines that start at an offset is read back line by line. -/
theorem sweep_codeBytes {labels : List Nat} {bound : Array (Option Nat)} {scope : Scope}
    {next behind : Label} {lines : List Line} {items : List (Item Label)} {offset fuel : Nat}
    {bytes : Bytes} (hlabels : labelOffsets bound = .ok labels)
    (hexpand : expand scope next lines = .ok (items, behind))
    (hbytes : codeBytes bound 0 offset items = .ok bytes) (hfuel : bytes.length ≤ fuel) :
    ∃ instrs, sweep fuel offset bytes = some instrs ∧
      Reads labels scope next (lines.zip (offsetsFrom offset lines)) instrs := by
  induction lines generalizing scope next items offset fuel bytes with
  | nil =>
    obtain ⟨rfl, -⟩ := Prod.mk.inj (Except.ok.inj hexpand)
    obtain rfl := Except.ok.inj hbytes
    refine ⟨[], ?_, .nil scope next⟩
    simp only [sweep]
  | cons line rest ih =>
    rw [offsetsFrom, List.zip_cons_cons]
    cases line with
    | label name =>
      obtain ⟨instrs, hsweep, hreads⟩ := ih hexpand hbytes hfuel
      exact ⟨instrs, hsweep, .label hreads⟩
    | item i =>
      obtain ⟨item, more, hitem, hbreach, hmore, rfl⟩ := expand_item_eq_ok hexpand
      obtain ⟨i?, hi, hrest⟩ := Except.bind_eq_ok.mp hbytes
      obtain ⟨tail, htail, rfl⟩ := Except.map_eq_ok.mp hrest
      obtain ⟨fuel', hfuel', hsweep⟩ :=
        sweep_encodeOption (breach?_of_resolve hbreach hi) offset hfuel
      obtain ⟨instrs, hinstrs, hreads⟩ := ih hmore htail hfuel'
      rw [length_encodeOption hi, hinstrs, Option.map_some] at hsweep
      rw [lineSize, size_of_mapLabel? hitem]
      exact ⟨_, hsweep, .item (readBack_of_resolve hlabels hitem hi) hreads⟩

/-- Whatever is assembled, disassembling it gives back exactly the lines that emitted code, with
instruction boundaries where the listing reported the end of the code. -/
theorem disassemble_assemble {lines : List Line} {a : Assembled} (h : assemble lines = .ok a) :
    ∃ instrs, disassemble a.code = some instrs ∧
      ∀ instrs', Reads a.labels [] 0 (lines.zip (offsets lines)) instrs' ↔ instrs' = instrs := by
  obtain ⟨⟨items, behind⟩, hexpand, hassemble⟩ := Except.bind_eq_ok.mp h
  have hitems := Refusal.ofBreach_eq_ok.mp hexpand
  obtain ⟨hcode, hlabels, -⟩ := assemble_eq_ok.mp (Refusal.ofError_eq_ok.mp hassemble)
  rw [offsets_eq_offsetsFrom]
  obtain ⟨instrs, hsweep, hreads⟩ := sweep_codeBytes hlabels hitems hcode (Nat.le_refl _)
  refine ⟨instrs, hsweep, fun instrs' => ⟨fun hreads' => hreads'.unique hreads, ?_⟩⟩
  rintro rfl
  exact hreads

/-- Bases that need an index byte or have no form without a displacement, `r12` as an index, an open
address, a branch forward and a branch back. -/
def corners : List Line := [
  .label "top",
  .label "end",
  .item (.bind "top"),
  .item (.plain (.load .rax { base := .r12 })),
  .item (.plain (.storeByte { base := .r13 } .rbx)),
  .item (.plain (.loadByte .r9 { base := .rbp, index := some .r12 })),
  .item (.plain (.aluByteImm .cmp { base := .rsp, disp := -129 } 255)),
  .item (.tapeAddress .r15),
  .item (.branch .equal "end"),
  .item (.jump "top"),
  .item (.bind "end"),
  .item (.plain .ret)]

theorem disassemble_assemble_corners :
    ∃ a instrs, assemble corners = .ok a ∧ disassemble a.code = some instrs ∧
      Reads a.labels [] 0 (corners.zip (offsets corners)) instrs := by
  have h : assemble corners = .ok ⟨_, _, _⟩ := rfl
  obtain ⟨instrs, hinstrs, hreads⟩ := disassemble_assemble h
  exact ⟨_, instrs, h, hinstrs, (hreads instrs).mpr rfl⟩

end Listing

end Assembly

end TapeLang
