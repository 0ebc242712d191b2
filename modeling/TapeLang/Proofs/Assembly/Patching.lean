import TapeLang.Proofs.Assembly.Resolution

/-!
# Filling in displacements

An assembler leaves zeros for the displacements of branches and fills them in at the end. The fields it
writes to lie one behind the other, so no displacement is written over another, and the code it ends with
is that of the resolved items.
-/

namespace TapeLang

namespace Assembly

open X86

/-! The code of items and the places left open in it. -/

/-- The field of an item that starts at an offset. -/
def Item.fixup? (offset : Nat) : Item Label → Option Fixup
  | .jump l => some ⟨offset + 1, l⟩
  | .branch _ l => some ⟨offset + 2, l⟩
  | _ => none

/-- The fields of items that start at an offset, in order. -/
def fixupsFrom : (offset : Nat) → List (Item Label) → List Fixup
  | _, [] => []
  | offset, item :: rest => (item.fixup? offset).toList ++ fixupsFrom (offset + item.size) rest

/-- The code of items before any displacement is known. -/
def emitted (items : List (Item Label)) : Bytes :=
  items.flatMap Item.template

private theorem emitted_cons (item : Item Label) (rest : List (Item Label)) :
    emitted (item :: rest) = item.template ++ emitted rest := rfl

theorem length_emitted (items : List (Item Label)) : (emitted items).length = sizes items := by
  induction items with
  | nil => rfl
  | cons item rest ih => rw [emitted_cons, List.length_append, ih, sizes_cons, Item.size]

/-! Fields lie one behind the other, each at the end of its branch. -/

section

variable {offset : Nat} {item : Item Label} {items rest : List (Item Label)} {b : Fixup}

private theorem fixup?_eq_some (h : item.fixup? offset = some b) :
    (∃ l, item = .jump l ∧ b = ⟨offset + 1, l⟩) ∨ ∃ c l, item = .branch c l ∧ b = ⟨offset + 2, l⟩ := by
  cases item with
  | jump l => exact .inl ⟨l, rfl, (Option.some.inj h).symm⟩
  | branch c l => exact .inr ⟨c, l, rfl, (Option.some.inj h).symm⟩
  | bind l => cases h
  | plain i => cases h
  | tapeAddress dst => cases h

private theorem fixup_bounds (h : item.fixup? offset = some b) :
    offset ≤ b.offset ∧ b.offset + 4 = offset + item.size := by
  rcases fixup?_eq_some h with ⟨l, rfl, rfl⟩ | ⟨c, l, rfl, rfl⟩ <;>
    simp [Item.size, Item.template, Instr.encode]

theorem mem_fixupsFrom_cons :
    b ∈ fixupsFrom offset (item :: rest) ↔
      item.fixup? offset = some b ∨ b ∈ fixupsFrom (offset + item.size) rest := by
  rw [fixupsFrom, List.mem_append, Option.mem_toList]

private theorem fixupsFrom_bounds (h : b ∈ fixupsFrom offset items) :
    offset ≤ b.offset ∧ b.offset + 4 ≤ offset + sizes items := by
  induction items generalizing offset with
  | nil => cases h
  | cons item rest ih =>
    rw [sizes_cons]
    rcases mem_fixupsFrom_cons.mp h with h | h
    · obtain ⟨hlow, hhigh⟩ := fixup_bounds h
      omega
    · obtain ⟨hlow, hhigh⟩ := ih h
      omega

theorem fixupsFrom_pairwise (offset : Nat) (items : List (Item Label)) :
    (fixupsFrom offset items).Pairwise fun b b' => b.offset + 4 ≤ b'.offset := by
  induction items generalizing offset with
  | nil => exact .nil
  | cons item rest ih =>
    rw [fixupsFrom, List.pairwise_append]
    refine ⟨?_, ih _, ?_⟩
    · cases item.fixup? offset <;> simp
    · intro b hb b' hb'
      obtain ⟨-, hhigh⟩ := fixup_bounds (Option.mem_toList.mp hb)
      obtain ⟨hlow, -⟩ := fixupsFrom_bounds hb'
      omega

theorem label_mem_usedLabels (h : b ∈ fixupsFrom offset items) : b.label ∈ usedLabels items := by
  induction items generalizing offset with
  | nil => cases h
  | cons item rest ih =>
    have hsplit : usedLabels (item :: rest) = usedLabels [item] ++ usedLabels rest :=
      usedLabels_append [item] rest
    rw [hsplit, List.mem_append]
    rcases mem_fixupsFrom_cons.mp h with h | h
    · rcases fixup?_eq_some h with ⟨l, rfl, rfl⟩ | ⟨c, l, rfl, rfl⟩ <;> simp [usedLabels]
    · exact .inr (ih h)

/-- Where an address is left open, an item ends, and its last eight bytes are zero. -/
theorem mem_item_openFields {r : Nat} (h : r ∈ item.openFields offset) :
    item.fixup? offset = none ∧ r + 8 = offset + item.size ∧ offset ≤ r ∧
      item.template.drop (r - offset) = List.replicate 8 0 := by
  cases item with
  | tapeAddress dst =>
    have hlength : (Instr.movImm64 dst 0).encode.length = (opLow true 0xB8 dst).length + 8 := by
      simp [Instr.encode]
    obtain rfl := List.mem_singleton.mp h
    refine ⟨rfl, ?_, ?_, ?_⟩
    · rw [Item.size, Item.template, hlength]
      omega
    · omega
    · have hfront : offset + (Instr.movImm64 dst 0).encode.length - 8 - offset =
          (opLow true 0xB8 dst).length := by omega
      rw [Item.template, hfront, Instr.encode, List.drop_left]
      rfl
  | bind l => cases h
  | plain i => cases h
  | jump l => cases h
  | branch c l => cases h

/-- Addresses are left open inside the code. -/
theorem openFields_bounds {r : Nat} (h : r ∈ openFields offset items) :
    offset ≤ r ∧ r + 8 ≤ offset + sizes items := by
  induction items generalizing offset with
  | nil => cases h
  | cons item rest ih =>
    rw [sizes_cons]
    rcases List.mem_append.mp h with h | h
    · obtain ⟨-, hends, hlow, -⟩ := mem_item_openFields h
      omega
    · obtain ⟨hlow, hhigh⟩ := ih h
      omega

/-- An open address is no part of a displacement. -/
theorem openFields_disjoint {r : Nat} (hr : r ∈ openFields offset items)
    (hb : b ∈ fixupsFrom offset items) : b.offset + 4 ≤ r ∨ r + 8 ≤ b.offset := by
  induction items generalizing offset with
  | nil => cases hr
  | cons item rest ih =>
    rcases List.mem_append.mp hr with hr | hr
    · obtain ⟨hnone, hends, -, -⟩ := mem_item_openFields hr
      rcases mem_fixupsFrom_cons.mp hb with hb | hb
      · rw [hnone] at hb
        cases hb
      · obtain ⟨hlow, -⟩ := fixupsFrom_bounds hb
        omega
    · rcases mem_fixupsFrom_cons.mp hb with hb | hb
      · obtain ⟨-, hhigh⟩ := fixup_bounds hb
        obtain ⟨hlow, -⟩ := openFields_bounds hr
        omega
      · exact ih hr hb

/-- Open addresses are emitted as zeros. -/
theorem emitted_openFields {r : Nat} (h : r ∈ openFields offset items) :
    ((emitted items).drop (r - offset)).take 8 = List.replicate 8 0 := by
  induction items generalizing offset with
  | nil => cases h
  | cons item rest ih =>
    rw [emitted_cons]
    rcases List.mem_append.mp h with h | h
    · obtain ⟨-, hends, hlow, hzero⟩ := mem_item_openFields h
      have hinside : r - offset ≤ item.template.length := by
        rw [Item.size] at hends
        omega
      rw [List.drop_append_of_le_length hinside, hzero]
      rfl
    · obtain ⟨hlow, -⟩ := openFields_bounds h
      have hcut : r - offset = item.template.length + (r - (offset + item.size)) := by
        rw [Item.size] at hlow ⊢
        omega
      rw [hcut, List.drop_length_add_append]
      exact ih h

end

/-! Assembled code is emitted code with the displacements filled in. -/

section

variable {bound : Array (Option Nat)} {offset : Nat} {item : Item Label} {items : List (Item Label)}
  {b : Fixup} {bytes : Bytes}

variable (bound) in
/-- An item without a field is as emitted. -/
theorem resolve_of_fixup?_none (h : item.fixup? offset = none) :
    ∃ i?, item.resolve bound 0 offset = .ok i? ∧ encodeOption i? = item.template := by
  cases item with
  | bind l => exact ⟨none, rfl, rfl⟩
  | plain i => exact ⟨some i, rfl, rfl⟩
  | tapeAddress dst => exact ⟨some (.movImm64 dst 0), rfl, rfl⟩
  | jump l => cases h
  | branch c l => cases h

variable (bound) in
/-- A branch is its opcode and its displacement. -/
theorem resolve_of_fixup? (h : item.fixup? offset = some b) :
    ∃ (opcode : Bytes) (i : Int32 → Instr), offset + opcode.length = b.offset ∧
      item.template = opcode ++ int32Bytes 0 ∧ (∀ rel, (i rel).encode = opcode ++ int32Bytes rel) ∧
      item.resolve bound 0 offset =
        (displacementTo bound b.label b.offset).map fun rel => some (i rel) := by
  rcases fixup?_eq_some h with ⟨l, rfl, rfl⟩ | ⟨c, l, rfl, rfl⟩
  · exact ⟨[0xE9], .jmp, rfl, rfl, fun _ => rfl, rfl⟩
  · exact ⟨[0x0F, UInt8.ofNat (0x80 + c.code)], .jcc c, rfl, rfl, fun _ => rfl, rfl⟩

/-- Items have no code if a displacement is missing, and the first one that is missing says why. -/
theorem codeBytes_eq_error_iff {e : AssembleError} :
    codeBytes bound 0 offset items = .error e ↔
      (fixupsFrom offset items).mapM (fun b => displacementTo bound b.label b.offset) =
        .error e := by
  induction items generalizing offset with
  | nil => simp [codeBytes, fixupsFrom, pure, Except.pure]
  | cons item rest ih =>
    rw [codeBytes, fixupsFrom]
    cases hfield : item.fixup? offset with
    | none =>
      obtain ⟨i?, hi, -⟩ := resolve_of_fixup?_none bound hfield
      rw [hi]
      exact Except.map_eq_error.trans ih
    | some b =>
      obtain ⟨opcode, i, -, -, -, hresolve⟩ := resolve_of_fixup? bound hfield
      rw [hresolve, Option.toList_some, List.singleton_append, List.mapM_cons]
      cases displacementTo bound b.label b.offset with
      | error e' => simp [Except.map, bind, Except.bind]
      | ok rel =>
        refine Except.map_eq_error.trans (ih.trans ?_)
        rw [Except.bind_eq_error]
        simp [Except.bind_eq_error, pure, Except.pure]

/-- Outside the fields, code is as emitted. -/
theorem codeBytes_kept (h : codeBytes bound 0 offset items = .ok bytes) {k : Nat}
    (outside : ∀ b ∈ fixupsFrom offset items, offset + k < b.offset ∨ b.offset + 4 ≤ offset + k) :
    bytes[k]? = (emitted items)[k]? := by
  induction items generalizing offset bytes k with
  | nil =>
    obtain rfl := Except.ok.inj h
    rfl
  | cons item rest ih =>
    obtain ⟨i?, hi, hrest⟩ := Except.bind_eq_ok.mp h
    obtain ⟨more, hmore, rfl⟩ := Except.map_eq_ok.mp hrest
    have hlength : (encodeOption i?).length = item.template.length := length_encodeOption hi
    rw [emitted_cons]
    by_cases hk : k < item.template.length
    · rw [List.getElem?_append_left (hlength ▸ hk), List.getElem?_append_left hk]
      cases hfield : item.fixup? offset with
      | none =>
        obtain ⟨j?, hj, hsame⟩ := resolve_of_fixup?_none bound hfield
        obtain rfl := Except.ok.inj (hi.symm.trans hj)
        rw [hsame]
      | some b =>
        obtain ⟨opcode, i, hopcode, htemplate, hencode, hresolve⟩ :=
          resolve_of_fixup? bound hfield
        rw [hresolve] at hi
        obtain ⟨rel, -, rfl⟩ := Except.map_eq_ok.mp hi
        obtain ⟨-, hends⟩ := fixup_bounds hfield
        have hfront : k < opcode.length := by
          rw [Item.size] at hends
          rcases outside b (mem_fixupsFrom_cons.mpr (.inl hfield)) with h | h <;> omega
        have hfilled : encodeOption (some (i rel)) = opcode ++ int32Bytes rel := hencode rel
        rw [hfilled, htemplate, List.getElem?_append_left hfront, List.getElem?_append_left hfront]
    · have hk' : item.template.length ≤ k := Nat.le_of_not_lt hk
      have hcut : offset + item.size + (k - item.template.length) = offset + k := by
        rw [Item.size]
        omega
      rw [List.getElem?_append_right (hlength ▸ hk'), List.getElem?_append_right hk', hlength]
      refine ih hmore fun b hb => ?_
      rw [hcut]
      exact outside b (mem_fixupsFrom_cons.mpr (.inr hb))

/-- In each field is the displacement to its label. -/
theorem codeBytes_field (h : codeBytes bound 0 offset items = .ok bytes)
    (hb : b ∈ fixupsFrom offset items) :
    ∃ rel, displacementTo bound b.label b.offset = .ok rel ∧
      (bytes.drop (b.offset - offset)).take 4 = int32Bytes rel := by
  induction items generalizing offset bytes with
  | nil => cases hb
  | cons item rest ih =>
    obtain ⟨i?, hi, hrest⟩ := Except.bind_eq_ok.mp h
    obtain ⟨more, hmore, rfl⟩ := Except.map_eq_ok.mp hrest
    rcases mem_fixupsFrom_cons.mp hb with hfield | hb
    · obtain ⟨opcode, i, hopcode, -, hencode, hresolve⟩ := resolve_of_fixup? bound hfield
      rw [hresolve] at hi
      obtain ⟨rel, hrel, rfl⟩ := Except.map_eq_ok.mp hi
      have hfilled : encodeOption (some (i rel)) = opcode ++ int32Bytes rel := hencode rel
      have hplace : b.offset - offset = opcode.length := by omega
      refine ⟨rel, hrel, ?_⟩
      rw [hfilled, hplace, List.append_assoc, List.drop_left, ← length_int32Bytes rel, List.take_left]
    · obtain ⟨rel, hrel, hbytes⟩ := ih hmore hb
      obtain ⟨hlow, -⟩ := fixupsFrom_bounds hb
      have hcut : b.offset - offset =
          (encodeOption i?).length + (b.offset - (offset + item.size)) := by
        rw [length_encodeOption hi]
        omega
      exact ⟨rel, hrel, by rw [hcut, List.drop_length_add_append, hbytes]⟩

/-- The bytes of an item with a given displacement in its field, if it has one. -/
def Item.filled (rel : Int32) : Item Label → Bytes
  | .jump _ => (Instr.jmp rel).encode
  | .branch c _ => (Instr.jcc c rel).encode
  | item => item.template

/-- The code of items with the same displacement in every field. -/
def filled (rel : Int32) (items : List (Item Label)) : Bytes :=
  items.flatMap (Item.filled rel)

theorem codeBytes_filled {rel : Int32} (h : codeBytes bound 0 offset items = .ok bytes)
    (hrel : ∀ b ∈ fixupsFrom offset items, displacementTo bound b.label b.offset = .ok rel) :
    bytes = filled rel items := by
  induction items generalizing offset bytes with
  | nil => exact (Except.ok.inj h).symm
  | cons item rest ih =>
    obtain ⟨i?, hi, hrest⟩ := Except.bind_eq_ok.mp h
    obtain ⟨more, hmore, rfl⟩ := Except.map_eq_ok.mp hrest
    have hmore' := ih hmore fun b hb => hrel b (mem_fixupsFrom_cons.mpr (.inr hb))
    have hitem : encodeOption i? = item.filled rel := by
      cases hfield : item.fixup? offset with
      | none =>
        obtain ⟨j?, hj, hsame⟩ := resolve_of_fixup?_none bound hfield
        obtain rfl := Except.ok.inj (hi.symm.trans hj)
        rw [hsame]
        cases item <;> simp_all [Item.fixup?, Item.filled]
      | some b =>
        have hb := hrel b (mem_fixupsFrom_cons.mpr (.inl hfield))
        rcases fixup?_eq_some hfield with ⟨l, rfl, rfl⟩ | ⟨c, l, rfl, rfl⟩ <;>
        · obtain ⟨rel', hrel', rfl⟩ := Except.map_eq_ok.mp hi
          obtain rfl := Except.ok.inj (hrel'.symm.trans hb)
          rfl
    rw [hitem, hmore']
    rfl

/-- The code of items in the middle lies behind that of the items in front of them. -/
theorem codeBytes_middle {front back : List (Item Label)}
    (h : codeBytes bound 0 0 (front ++ (items ++ back)) = .ok bytes) :
    codeBytes bound 0 (sizes front) items =
      .ok ((bytes.drop (sizes front)).take (sizes items)) := by
  obtain ⟨before, rest, hbefore, hrest, rfl⟩ := codeBytes_append.mp h
  obtain ⟨own, behind, hown, -, rfl⟩ := codeBytes_append.mp hrest
  rw [Nat.zero_add] at hown
  rw [hown, ← length_codeBytes hbefore, List.drop_left, ← length_codeBytes hown, List.take_left]

end

/-! The loop that fills displacements in. -/

/-- Bytes in the middle are replaced, and all around them is kept. -/
theorem toList_writeAt {code : Array UInt8} {front old new back : Bytes}
    (h : code.toList = front ++ (old ++ back)) (hlength : old.length = new.length) :
    (writeAt code front.length new).toList = front ++ (new ++ back) := by
  induction new generalizing code front old with
  | nil =>
    obtain rfl := List.length_eq_zero_iff.mp hlength
    exact h
  | cons b new ih =>
    cases old with
    | nil => cases hlength
    | cons o old =>
      have hset : (code.setIfInBounds front.length b).toList = (front ++ [b]) ++ (old ++ back) := by
        rw [Array.toList_setIfInBounds, h]
        simp
      have hrest := ih hset (Nat.succ.inj hlength)
      rw [List.length_append, List.length_singleton] at hrest
      rw [writeAt, hrest]
      simp

/-- Each round of the loop writes behind what the rounds before it have written. -/
theorem foldlM_patch (bound : Array (Option Nat)) {front : Bytes} {items : List (Item Label)}
    {code : Array UInt8} (h : code.toList = front ++ emitted items) :
    ((fixupsFrom front.length items).foldlM (Fixup.patch bound) code).map Array.toList =
      (codeBytes bound 0 front.length items).map (front ++ ·) := by
  induction items generalizing front code with
  | nil => simpa [fixupsFrom, codeBytes, emitted, pure, Except.pure, Except.map] using h
  | cons item rest ih =>
    rw [emitted_cons] at h
    rw [fixupsFrom, codeBytes]
    cases hfixup : item.fixup? front.length with
    | none =>
      obtain ⟨i?, hi, hsame⟩ := resolve_of_fixup?_none bound hfixup
      have hcode : code.toList = (front ++ item.template) ++ emitted rest := by simpa using h
      have hrest := ih hcode
      rw [List.length_append] at hrest
      rw [hi, Option.toList_none, List.nil_append, Item.size, hrest]
      cases codeBytes bound 0 (front.length + item.template.length) rest <;>
        simp [Except.map, Except.bind, hsame]
    | some b =>
      obtain ⟨opcode, i, hoffset, htemplate, hencode, hresolve⟩ := resolve_of_fixup? bound hfixup
      rw [hresolve, Option.toList_some, List.singleton_append, List.foldlM_cons, Fixup.patch]
      cases displacementTo bound b.label b.offset with
      | error e => rfl
      | ok rel =>
        have hwritten : (writeAt code b.offset (int32Bytes rel)).toList =
            (front ++ opcode ++ int32Bytes rel) ++ emitted rest := by
          have hcode : code.toList = (front ++ opcode) ++ (int32Bytes 0 ++ emitted rest) := by
            rw [h, htemplate]
            simp
          have hlength : (int32Bytes 0).length = (int32Bytes rel).length := by simp
          have hnew := toList_writeAt hcode hlength
          rw [List.length_append, hoffset] at hnew
          rw [hnew]
          simp
        have hrest := ih hwritten
        have hlength : (front ++ opcode ++ int32Bytes rel).length = front.length + item.size := by
          simp [Item.size, htemplate]
        rw [hlength] at hrest
        have hfilled : encodeOption (some (i rel)) = opcode ++ int32Bytes rel := hencode rel
        refine hrest.trans ?_
        cases codeBytes bound 0 (front.length + item.size) rest <;>
          simp [Except.map, Except.bind, hfilled]

/-! What an assembler holds after its calls. -/

namespace Assembler

private theorem size_appendList (code : Array UInt8) (bytes : Bytes) :
    (code ++ bytes).size = code.size + bytes.length := by
  rw [← Array.length_toList, Array.toList_appendList, List.length_append, Array.length_toList]

theorem emit_eq (a : Assembler) (item : Item Label) :
    a.emit item = ⟨a.code ++ item.template, (Layout.place ⟨a.code.size, a.labels⟩ item).bound,
      a.fixups ++ (item.fixup? a.code.size).toList, a.relocations ++ item.openFields a.code.size⟩ := by
  obtain ⟨code, labels, fixups, relocations⟩ := a
  cases item with
  | bind l => simp [emit, bind, Item.template, Layout.place, Item.fixup?, Item.openFields]
  | plain i => simp [emit, append, Item.template, Layout.place, Item.fixup?, Item.openFields]
  | tapeAddress dst =>
    have hoffset : code.size + ((opLow true 0xB8 dst).length + 8) - 8 =
        (code ++ opLow true 0xB8 dst).size := by
      rw [size_appendList, ← Nat.add_assoc, Nat.add_sub_cancel]
    simp [emit, append, appendRelocation, Item.template, Instr.encode, Layout.place, Item.fixup?,
      Item.openFields, hoffset, ← Array.toList_inj]
  | jump l =>
    simp [emit, append, appendFixup, Item.template, Instr.encode, Layout.place, Item.fixup?,
      Item.openFields]
  | branch c l =>
    simp [emit, append, appendFixup, Item.template, Instr.encode, Layout.place, Item.fixup?,
      Item.openFields]

private theorem foldl_emit (items : List (Item Label)) (a : Assembler) :
    items.foldl emit a = ⟨a.code ++ emitted items,
      (items.foldl Layout.place ⟨a.code.size, a.labels⟩).bound,
      a.fixups ++ fixupsFrom a.code.size items, a.relocations ++ openFields a.code.size items⟩ := by
  induction items generalizing a with
  | nil => simp [emitted, fixupsFrom, openFields]
  | cons item rest ih =>
    have hsize : (a.code ++ item.template).size =
        (Layout.place ⟨a.code.size, a.labels⟩ item).offset := by
      rw [size_appendList, offset_place, Item.size]
    have hoffset := offset_place ⟨a.code.size, a.labels⟩ item
    rw [List.foldl_cons, ih, emit_eq, hsize, Assembler.mk.injEq]
    refine ⟨by simp [emitted_cons, ← Array.toList_inj], rfl, ?_, ?_⟩
    · simp [hoffset, fixupsFrom, ← Array.toList_inj]
    · simp [hoffset, openFields, ← Array.toList_inj]

/-- Labels made by a first row of calls are not bound yet. -/
theorem after_newLabels (labels : Nat) :
    after (List.replicate labels .newLabel) = { labels := Array.replicate labels none } := by
  rw [after]
  induction labels with
  | zero => rfl
  | succ labels ih =>
    rw [List.replicate_succ', List.foldl_append, ih]
    simp [call, newLabel, Array.replicate_succ]

/-- Code, bindings and fields after the labels were made and the items added. -/
theorem after_items (labels : Nat) (items : List (Item Label)) :
    after (List.replicate labels .newLabel ++ items.map .emit) =
      ⟨(emitted items).toArray, bindings labels items, (fixupsFrom 0 items).toArray,
        (openFields 0 items).toArray⟩ := by
  have hnew := after_newLabels labels
  rw [after] at hnew ⊢
  rw [List.foldl_append, hnew, List.foldl_map]
  simp only [call, foldl_emit]
  simp [bindings, Layout.start]

end Assembler

/-- Assembling is resolving every item where it is. -/
theorem assemble_eq (labels : Nat) (items : List (Item Label)) :
    assemble labels items = (codeBytes (bindings labels items) 0 0 items).bind fun code =>
      (labelOffsets (bindings labels items)).map fun offsets => ⟨code, openFields 0 items, offsets⟩ := by
  have hstart : (emitted items).toArray.toList = [] ++ emitted items := rfl
  have hcode := foldlM_patch (bindings labels items) hstart
  rw [List.length_nil] at hcode
  rw [assemble, Assembler.after_items]
  simp only [Assembler.finish, bind, pure, Except.pure]
  cases hpatched : (fixupsFrom 0 items).foldlM (Fixup.patch (bindings labels items))
      (emitted items).toArray with
  | error e =>
    rw [hpatched] at hcode
    have herror := Except.map_eq_error.mp hcode.symm
    rw [herror]
    rfl
  | ok code =>
    rw [hpatched] at hcode
    obtain ⟨_, hbytes, rfl⟩ := Except.map_eq_ok.mp hcode.symm
    rw [hbytes]
    rfl

section

variable {labels : Nat} {items : List (Item Label)}

theorem assemble_eq_ok {a : Assembled} :
    assemble labels items = .ok a ↔
      codeBytes (bindings labels items) 0 0 items = .ok a.code ∧
        labelOffsets (bindings labels items) = .ok a.labels ∧
        a.relocations = openFields 0 items := by
  obtain ⟨code, relocations, offsets⟩ := a
  rw [assemble_eq]
  cases codeBytes (bindings labels items) 0 0 items with
  | error e => simp [Except.bind]
  | ok bytes =>
    cases labelOffsets (bindings labels items) with
    | error e => simp [Except.map, Except.bind]
    | ok offsets' => simp [Except.map, Except.bind, eq_comm, and_comm, and_left_comm]

theorem assemble_eq_error {e : AssembleError} : assemble labels items = .error e ↔
    codeBytes (bindings labels items) 0 0 items = .error e ∨
      (∃ bytes, codeBytes (bindings labels items) 0 0 items = .ok bytes) ∧
        labelOffsets (bindings labels items) = .error e := by
  rw [assemble_eq]
  cases codeBytes (bindings labels items) 0 0 items with
  | error e => simp [Except.bind]
  | ok bytes => simp [Except.bind, Except.map_eq_error]

/-- Items that bind all labels and branch to no others are assembled if their code is below 2 GiB. -/
theorem assemble_ok (bound : ∀ l < labels, l ∈ boundLabels items)
    (used : ∀ l ∈ usedLabels items, l < labels) (small : sizes items ≤ 2 ^ 31) :
    ∃ a, assemble labels items = .ok a := by
  have targets : ∀ l < labels, ∃ target,
      (bindings labels items).getD l none = some target ∧ target ≤ sizes items :=
    fun l hl => bindings_of_mem (bound l hl) hl
  have hused : ∀ l ∈ usedLabels items, ∃ target,
      (bindings labels items).getD l none = some target ∧ target ≤ 2 ^ 31 := by
    intro l hl
    obtain ⟨target, ht, hle⟩ := targets l (used l hl)
    exact ⟨target, ht, Nat.le_trans hle small⟩
  have hall : ∀ l < (bindings labels items).size, ∃ target,
      (bindings labels items).getD l none = some target := by
    intro l hl
    obtain ⟨target, ht, -⟩ := targets l (by simpa using hl)
    exact ⟨target, ht⟩
  have hsmall : 0 + sizes items ≤ 2 ^ 31 := by omega
  obtain ⟨bytes, hbytes⟩ := codeBytes_ok hused hsmall 0
  obtain ⟨offsets, hoffsets⟩ := labelOffsets_ok hall
  exact ⟨⟨bytes, openFields 0 items, offsets⟩, assemble_eq_ok.mpr ⟨hbytes, hoffsets, rfl⟩⟩

end

end Assembly

end TapeLang
