import TapeLang.Proofs.Assembly.Disassembly

/-!
# Branches lead to the last binding

Assembling fills in the displacements of branches and nothing else. It fails exactly if a label was
never bound or a displacement does not fit, and then it names the first branch that cannot be
resolved, or else the first label that was never bound.
-/

namespace TapeLang

namespace Assembly

open X86

/-! Where labels are bound. -/

/-- `LastBound items l target`: the last binding of `l` is at the offset `target`. -/
def LastBound (items : List (Item Label)) (l : Label) (target : Nat) : Prop :=
  ∃ front back, items = front ++ .bind l :: back ∧ l ∉ boundLabels back ∧ sizes front = target

theorem exists_lastBound {items : List (Item Label)} {l : Label} (h : l ∈ boundLabels items) :
    ∃ target, LastBound items l target := by
  obtain ⟨front, back, hitems, hlast⟩ := exists_last_bind h
  exact ⟨sizes front, front, back, hitems, hlast, rfl⟩

theorem LastBound.mem {items : List (Item Label)} {l : Label} {target : Nat}
    (h : LastBound items l target) : l ∈ boundLabels items := by
  obtain ⟨front, back, rfl, -⟩ := h
  simp

theorem LastBound.append {front items : List (Item Label)} {l : Label} {target : Nat}
    (h : LastBound items l target) : LastBound (front ++ items) l (sizes front + target) := by
  obtain ⟨before, back, rfl, hlast, rfl⟩ := h
  exact ⟨front ++ before, back, by simp, hlast, sizes_append front before⟩

theorem bindings_eq_none {labels : Nat} {items : List (Item Label)} {l : Label}
    (h : l ∉ boundLabels items) : (bindings labels items).getD l none = none := by
  rw [bindings, bound_foldl_place_of_not_mem h, Layout.start, Array.getD_eq_getD_getElem?,
    Array.getElem?_replicate]
  split <;> rfl

/-- The table of bindings holds the last ones. -/
theorem bindings_eq_some_iff {labels : Nat} {items : List (Item Label)} {l : Label} {target : Nat}
    (hl : l < labels) :
    (bindings labels items).getD l none = some target ↔ LastBound items l target := by
  constructor
  · intro h
    by_cases hmem : l ∈ boundLabels items
    · obtain ⟨front, back, hitems, hlast⟩ := exists_last_bind hmem
      rw [bindings_eq_some hitems hlast hl] at h
      exact ⟨front, back, hitems, hlast, Option.some.inj h⟩
    · rw [bindings_eq_none hmem] at h
      cases h
  · rintro ⟨front, back, hitems, hlast, rfl⟩
    exact bindings_eq_some hitems hlast hl

private theorem bindings_eq_none_iff {labels : Nat} {items : List (Item Label)} {l : Label}
    (hl : l < labels) : (bindings labels items).getD l none = none ↔ l ∉ boundLabels items := by
  refine ⟨fun h hmem => ?_, bindings_eq_none⟩
  obtain ⟨target, ht⟩ := exists_lastBound hmem
  rw [(bindings_eq_some_iff hl).mpr ht] at h
  cases h

theorem LastBound.unique {items : List (Item Label)} {l : Label} {target target' : Nat}
    (h : LastBound items l target) (h' : LastBound items l target') : target = target' := by
  have hbound := (bindings_eq_some_iff (Nat.lt_succ_self l)).mpr h
  rw [(bindings_eq_some_iff (Nat.lt_succ_self l)).mpr h'] at hbound
  exact (Option.some.inj hbound).symm

/-! Displacements. -/

/-- A displacement from behind the field to an offset fits in 32 bits. -/
def Fixup.InReach (b : Fixup) (target : Nat) : Prop :=
  -0x80000000 ≤ (target - (b.offset + 4 : Nat) : Int) ∧
    (target - (b.offset + 4 : Nat) : Int) < 0x80000000

instance (b : Fixup) (target : Nat) : Decidable (b.InReach target) :=
  inferInstanceAs (Decidable (_ ∧ _))

/-- What keeps a branch from being resolved. -/
inductive Defect (items : List (Item Label)) (b : Fixup) : AssembleError → Prop where
  | unbound (never : b.label ∉ boundLabels items) : Defect items b (.unboundLabel b.label)
  | far {target : Nat} (bound : LastBound items b.label target) (far : ¬ b.InReach target) :
      Defect items b (.branchOutOfRange b.offset)

/-- The branch can be resolved. -/
def Fixup.Resolvable (items : List (Item Label)) (b : Fixup) : Prop :=
  ∃ target, LastBound items b.label target ∧ b.InReach target

private theorem Defect.not_resolvable {items : List (Item Label)} {b : Fixup} {e : AssembleError}
    (h : Defect items b e) : ¬ b.Resolvable items := by
  rintro ⟨target, ht, inside⟩
  cases h with
  | unbound never => exact never ht.mem
  | far bound far => exact far (bound.unique ht ▸ inside)

section

variable {labels : Nat} {items : List (Item Label)} {b : Fixup} {target : Nat}

theorem displacementTo_of_lastBound (hl : b.label < labels) (h : LastBound items b.label target) :
    displacementTo (bindings labels items) b.label b.offset =
      if b.InReach target then .ok (Int32.ofInt (target - (b.offset + 4 : Nat)))
      else .error (.branchOutOfRange b.offset) := by
  simp only [displacementTo, (bindings_eq_some_iff hl).mpr h]
  rfl

private theorem displacementTo_of_unbound (h : b.label ∉ boundLabels items) :
    displacementTo (bindings labels items) b.label b.offset = .error (.unboundLabel b.label) := by
  simp only [displacementTo, bindings_eq_none h]

/-- A displacement leads from behind its field to the last binding of its label. -/
theorem displacementTo_eq_ok_iff (hl : b.label < labels) {rel : Int32} :
    displacementTo (bindings labels items) b.label b.offset = .ok rel ↔
      ∃ target, LastBound items b.label target ∧ b.InReach target ∧
        (b.offset + 4 : Nat) + rel.toInt = target := by
  constructor
  · intro h
    by_cases hmem : b.label ∈ boundLabels items
    · obtain ⟨target, ht⟩ := exists_lastBound hmem
      rw [displacementTo_of_lastBound hl ht] at h
      split at h
      next inside =>
        refine ⟨target, ht, inside, ?_⟩
        rw [← Except.ok.inj h, Int32.toInt_ofInt_of_le inside.1 inside.2]
        omega
      next => cases h
    · rw [displacementTo_of_unbound hmem] at h
      cases h
  · rintro ⟨target, ht, inside, hlands⟩
    rw [displacementTo_of_lastBound hl ht, if_pos inside, ← hlands, Int.add_comm,
      Int.add_sub_cancel, Int32.ofInt_toInt]

theorem displacementTo_eq_error_iff (hl : b.label < labels) {e : AssembleError} :
    displacementTo (bindings labels items) b.label b.offset = .error e ↔ Defect items b e := by
  constructor
  · intro h
    by_cases hmem : b.label ∈ boundLabels items
    · obtain ⟨target, ht⟩ := exists_lastBound hmem
      rw [displacementTo_of_lastBound hl ht] at h
      split at h
      next => cases h
      next outside =>
        obtain rfl := Except.error.inj h
        exact .far ht outside
    · rw [displacementTo_of_unbound hmem] at h
      obtain rfl := Except.error.inj h
      exact .unbound hmem
  · rintro (hmem | ⟨ht, outside⟩)
    · exact displacementTo_of_unbound hmem
    · rw [displacementTo_of_lastBound hl ht, if_neg outside]

theorem exists_displacementTo_iff (hl : b.label < labels) :
    (∃ rel, displacementTo (bindings labels items) b.label b.offset = .ok rel) ↔
      b.Resolvable items := by
  constructor
  · rintro ⟨rel, hrel⟩
    obtain ⟨target, ht, inside, -⟩ := (displacementTo_eq_ok_iff hl).mp hrel
    exact ⟨target, ht, inside⟩
  · rintro ⟨target, ht, inside⟩
    exact ⟨_, (displacementTo_of_lastBound hl ht).trans (if_pos inside)⟩

end

/-! Labels. -/

section

variable {labels : Nat} {items : List (Item Label)}

private theorem getElem?_bindings {l : Label} (hl : l < labels) :
    (bindings labels items).toList.zipIdx[l]? =
      some ((bindings labels items).getD l none, l) := by
  have hget : (bindings labels items)[l]? = some ((bindings labels items).getD l none) := by
    rw [Array.getD_eq_getD_getElem?, Array.getElem?_eq_getElem (by simpa using hl), Option.getD_some]
  rw [List.getElem?_zipIdx, Array.getElem?_toList, hget]
  simp

/-- The first label that was never bound has no offset. -/
theorem labelOffsets_eq_error_iff {e : AssembleError} :
    labelOffsets (bindings labels items) = .error e ↔
      ∃ l < labels, l ∉ boundLabels items ∧ (∀ l' < l, l' ∈ boundLabels items) ∧
        e = .unboundLabel l := by
  rw [labelOffsets, Except.mapM_eq_error]
  constructor
  · rintro ⟨l, x, hx, hfail, hbefore⟩
    have hl : l < labels := by simpa using (List.getElem?_eq_some_iff.mp hx).1
    obtain rfl := Option.some.inj ((getElem?_bindings hl).symm.trans hx)
    cases hbound : (bindings labels items).getD l none with
    | some target => simp [hbound] at hfail
    | none =>
      refine ⟨l, hl, (bindings_eq_none_iff hl).mp hbound, fun l' hl' => ?_, ?_⟩
      · obtain ⟨target, ht⟩ := hbefore l' hl' _ (getElem?_bindings (Nat.lt_trans hl' hl))
        by_contra hmem
        rw [bindings_eq_none hmem] at ht
        cases ht
      · simpa [hbound, eq_comm] using hfail
  · rintro ⟨l, hl, hnever, hleast, rfl⟩
    refine ⟨l, _, getElem?_bindings hl, by rw [bindings_eq_none hnever], fun l' hl' y hy => ?_⟩
    have hl'' : l' < labels := by omega
    obtain rfl := Option.some.inj ((getElem?_bindings hl'').symm.trans hy)
    obtain ⟨target, ht⟩ := exists_lastBound (hleast l' hl')
    exact ⟨target, by rw [(bindings_eq_some_iff hl'').mpr ht]⟩

theorem lastBound_of_labelOffsets {offsets : List Nat}
    (h : labelOffsets (bindings labels items) = .ok offsets) :
    offsets.length = labels ∧
      ∀ l < labels, ∃ target, LastBound items l target ∧ offsets[l]? = some target := by
  have hall : (bindings labels items).toList = offsets.map some := map_some_of_mapM h
  have hlength : offsets.length = labels := by
    have := congrArg List.length hall
    simpa using this.symm
  refine ⟨hlength, fun l hl => ?_⟩
  have hget : (bindings labels items).getD l none = offsets[l]? := by
    rw [Array.getD_eq_getD_getElem?, ← Array.getElem?_toList, hall, List.getElem?_map]
    cases offsets[l]? <;> rfl
  have hsome : offsets[l]? = some offsets[l] := List.getElem?_eq_getElem (hlength ▸ hl)
  exact ⟨_, (bindings_eq_some_iff hl).mp (hget.trans hsome), hsome⟩

end

/-! What assembling gives. -/

/-- Items are assembled: every branch leads to the last binding of its label, all else is as emitted,
and addresses left open are zeros apart from all branches. -/
structure Resolved (labels : Nat) (items : List (Item Label)) (a : Assembled) : Prop where
  branches : ∀ b ∈ fixupsFrom 0 items, ∃ rel target, LastBound items b.label target ∧
    (a.code.drop b.offset).take 4 = int32Bytes rel ∧ (b.offset + 4 : Nat) + rel.toInt = target
  /-- No displacement is written over another. -/
  apart : (fixupsFrom 0 items).Pairwise fun b b' => b.offset + 4 ≤ b'.offset
  length_labels : a.labels.length = labels
  labels : ∀ l < labels, ∃ target, LastBound items l target ∧ a.labels[l]? = some target
  length_code : a.code.length = (emitted items).length
  kept : ∀ k, (∀ b ∈ fixupsFrom 0 items, k < b.offset ∨ b.offset + 4 ≤ k) →
    a.code[k]? = (emitted items)[k]?
  relocations : a.relocations = openFields 0 items
  zeros : ∀ r ∈ a.relocations, (a.code.drop r).take 8 = List.replicate 8 0 ∧
    ∀ b ∈ fixupsFrom 0 items, b.offset + 4 ≤ r ∨ r + 8 ≤ b.offset

/-- What keeps items from being assembled: the first branch that cannot be resolved, or, if all can,
the first label that was never bound. -/
inductive FirstDefect (labels : Nat) (items : List (Item Label)) : AssembleError → Prop where
  | branch {i : Nat} {b : Fixup} {e : AssembleError} (field : (fixupsFrom 0 items)[i]? = some b)
      (defect : Defect items b e)
      (before : ∀ j < i, ∀ b', (fixupsFrom 0 items)[j]? = some b' → b'.Resolvable items) :
      FirstDefect labels items e
  | label {l : Label} (resolvable : ∀ b ∈ fixupsFrom 0 items, b.Resolvable items) (hl : l < labels)
      (never : l ∉ boundLabels items) (least : ∀ l' < l, l' ∈ boundLabels items) :
      FirstDefect labels items (.unboundLabel l)

section

variable {labels : Nat} {items : List (Item Label)} {a : Assembled} {e : AssembleError}

theorem resolved_of_assemble (known : ∀ l ∈ usedLabels items, l < labels)
    (h : assemble labels items = .ok a) : Resolved labels items a := by
  obtain ⟨hcode, hlabels, hrelocations⟩ := assemble_eq_ok.mp h
  obtain ⟨hlength, hlast⟩ := lastBound_of_labelOffsets hlabels
  have hkept : ∀ k, (∀ b ∈ fixupsFrom 0 items, k < b.offset ∨ b.offset + 4 ≤ k) →
      a.code[k]? = (emitted items)[k]? := by
    intro k outside
    exact codeBytes_kept hcode (by simpa using outside)
  refine ⟨fun b hb => ?_, fixupsFrom_pairwise 0 items, hlength, hlast, ?_, hkept, hrelocations,
    fun r hr => ?_⟩
  · obtain ⟨rel, hrel, hbytes⟩ := codeBytes_field hcode hb
    obtain ⟨target, ht, -, hlands⟩ :=
      (displacementTo_eq_ok_iff (known _ (label_mem_usedLabels hb))).mp hrel
    exact ⟨rel, target, ht, hbytes, hlands⟩
  · rw [length_codeBytes hcode, length_emitted]
  · rw [hrelocations] at hr
    have hdisjoint : ∀ b ∈ fixupsFrom 0 items, b.offset + 4 ≤ r ∨ r + 8 ≤ b.offset :=
      fun b hb => openFields_disjoint hr hb
    refine ⟨?_, hdisjoint⟩
    rw [← emitted_openFields hr]
    apply List.ext_getElem?
    intro k
    rw [List.getElem?_take, List.getElem?_take, List.getElem?_drop, List.getElem?_drop, Nat.sub_zero]
    split
    next hk =>
      refine hkept (r + k) fun b hb => ?_
      rcases hdisjoint b hb with h | h <;> omega
    next => rfl

private theorem resolvable_of_codeBytes {bytes : Bytes} (known : ∀ l ∈ usedLabels items, l < labels)
    (h : codeBytes (bindings labels items) 0 0 items = .ok bytes) :
    ∀ b ∈ fixupsFrom 0 items, b.Resolvable items := by
  intro b hb
  obtain ⟨rel, hrel, -⟩ := codeBytes_field h hb
  exact (exists_displacementTo_iff (known _ (label_mem_usedLabels hb))).mp ⟨rel, hrel⟩

theorem codeBytes_eq_error_iff_defect (known : ∀ l ∈ usedLabels items, l < labels) :
    codeBytes (bindings labels items) 0 0 items = .error e ↔
      ∃ (i : Nat) (b : Fixup), (fixupsFrom 0 items)[i]? = some b ∧ Defect items b e ∧
        ∀ j < i, ∀ b', (fixupsFrom 0 items)[j]? = some b' → b'.Resolvable items := by
  have hknown : ∀ {i : Nat} {b : Fixup}, (fixupsFrom 0 items)[i]? = some b → b.label < labels :=
    fun hb => known _ (label_mem_usedLabels (List.mem_of_getElem? hb))
  rw [codeBytes_eq_error_iff, Except.mapM_eq_error]
  constructor
  · rintro ⟨i, b, hb, hfail, hbefore⟩
    exact ⟨i, b, hb, (displacementTo_eq_error_iff (hknown hb)).mp hfail, fun j hj b' hb' =>
      (exists_displacementTo_iff (hknown hb')).mp (hbefore j hj b' hb')⟩
  · rintro ⟨i, b, hb, hdefect, hbefore⟩
    exact ⟨i, b, hb, (displacementTo_eq_error_iff (hknown hb)).mpr hdefect, fun j hj b' hb' =>
      (exists_displacementTo_iff (hknown hb')).mpr (hbefore j hj b' hb')⟩

theorem exists_assemble_iff (known : ∀ l ∈ usedLabels items, l < labels) :
    (∃ a, assemble labels items = .ok a) ↔
      (∀ l < labels, l ∈ boundLabels items) ∧ ∀ b ∈ fixupsFrom 0 items, b.Resolvable items := by
  constructor
  · rintro ⟨a, ha⟩
    refine ⟨fun l hl => ?_, resolvable_of_codeBytes known (assemble_eq_ok.mp ha).1⟩
    obtain ⟨target, ht, -⟩ := (resolved_of_assemble known ha).labels l hl
    exact ht.mem
  · rintro ⟨hbound, hresolvable⟩
    cases ha : assemble labels items with
    | ok a => exact ⟨a, rfl⟩
    | error e =>
      exfalso
      rcases assemble_eq_error.mp ha with hcode | ⟨-, hlabels⟩
      · obtain ⟨i, b, hb, hdefect, -⟩ := (codeBytes_eq_error_iff_defect known).mp hcode
        exact hdefect.not_resolvable (hresolvable b (List.mem_of_getElem? hb))
      · obtain ⟨l, hl, hnever, -⟩ := labelOffsets_eq_error_iff.mp hlabels
        exact hnever (hbound l hl)

theorem assemble_eq_error_iff (known : ∀ l ∈ usedLabels items, l < labels) :
    assemble labels items = .error e ↔ FirstDefect labels items e := by
  rw [assemble_eq_error, codeBytes_eq_error_iff_defect known, labelOffsets_eq_error_iff]
  constructor
  · rintro (⟨i, b, hb, hdefect, hbefore⟩ | ⟨⟨bytes, hbytes⟩, l, hl, hnever, hleast, rfl⟩)
    · exact .branch hb hdefect hbefore
    · exact .label (resolvable_of_codeBytes known hbytes) hl hnever hleast
  · rintro (⟨hb, hdefect, hbefore⟩ | ⟨hresolvable, hl, hnever, hleast⟩)
    · exact .inl ⟨_, _, hb, hdefect, hbefore⟩
    · refine .inr ⟨?_, _, hl, hnever, hleast, rfl⟩
      cases hcode : codeBytes (bindings labels items) 0 0 items with
      | ok bytes => exact ⟨bytes, rfl⟩
      | error e =>
        obtain ⟨i, b, hb, hdefect, -⟩ := (codeBytes_eq_error_iff_defect known).mp hcode
        exact absurd (hresolvable b (List.mem_of_getElem? hb)) hdefect.not_resolvable

end

/-! Calls in any order. -/

/-- The label an item names. -/
def Item.label? : Item Label → Option Label
  | .bind l | .jump l | .branch _ l => some l
  | .plain _ | .tapeAddress _ => none

namespace Assembler

/-- The number of labels some calls make. -/
def made (calls : List Call) : Nat :=
  calls.count .newLabel

/-- The items some calls add. -/
def itemsOf (calls : List Call) : List (Item Label) :=
  calls.filterMap fun
    | .newLabel => none
    | .emit item => some item

/-- Every label the calls name was made by an earlier one, or is among the first `known`. -/
def OwnLabels : (known : Nat) → List Call → Prop
  | _, [] => True
  | known, .newLabel :: rest => OwnLabels (known + 1) rest
  | known, .emit item :: rest => (∀ l ∈ item.label?, l < known) ∧ OwnLabels known rest

instance OwnLabels.decidable : (known : Nat) → (calls : List Call) → Decidable (OwnLabels known calls)
  | _, [] => inferInstanceAs (Decidable True)
  | known, .newLabel :: rest => OwnLabels.decidable (known + 1) rest
  | known, .emit item :: rest =>
    have := OwnLabels.decidable known rest
    inferInstanceAs (Decidable ((∀ l ∈ item.label?, l < known) ∧ OwnLabels known rest))

variable {calls : List Call} {a : Assembler}

private theorem size_labels_emit (a : Assembler) (item : Item Label) :
    (a.emit item).labels.size = a.labels.size := by
  rw [emit_eq]
  exact size_bound_place _ item

/-- Labels made later do not matter to an item that names none of them. -/
theorem emit_of_more_labels {item : Item Label} (h : ∀ l ∈ item.label?, l < a.labels.size)
    (more : Array (Option Nat)) :
    ({ a with labels := a.labels ++ more } : Assembler).emit item =
      { a.emit item with labels := (a.emit item).labels ++ more } := by
  obtain ⟨code, labels, fixups, relocations⟩ := a
  cases item with
  | bind l => simp [emit, bind, h l rfl]
  | plain i => rfl
  | tapeAddress dst => rfl
  | jump l => rfl
  | branch c l => rfl

/-- It makes no difference when a label is made, if it is made before it is named. -/
theorem foldl_call (own : OwnLabels a.labels.size calls) :
    calls.foldl call a = (itemsOf calls).foldl emit
      { a with labels := a.labels ++ Array.replicate (made calls) none } := by
  induction calls generalizing a with
  | nil => simp [itemsOf, made]
  | cons c rest ih =>
    cases c with
    | newLabel =>
      have hlabels : a.labels ++ Array.replicate (made (.newLabel :: rest)) none =
          a.newLabel.labels ++ Array.replicate (made rest) none := by
        simp [made, newLabel, ← Array.toList_inj, List.replicate_succ]
      have hsize : a.newLabel.labels.size = a.labels.size + 1 := Array.size_push ..
      have hrest := ih (a := a.newLabel) (hsize ▸ own)
      rw [List.foldl_cons, call, hrest, hlabels]
      rfl
    | emit item =>
      obtain ⟨hitem, own⟩ := own
      rw [← size_labels_emit a item] at own
      rw [List.foldl_cons, call, ih own, ← emit_of_more_labels hitem]
      rfl

theorem after_eq (own : OwnLabels 0 calls) :
    after calls = after (List.replicate (made calls) .newLabel ++ (itemsOf calls).map .emit) := by
  have hcalls : after calls = _ := foldl_call (a := {}) own
  have hnew := after_newLabels (made calls)
  rw [hcalls]
  rw [after] at hnew ⊢
  rw [List.foldl_append, hnew, List.foldl_map, Array.empty_append]
  rfl

theorem lt_made_of_used {l known : Nat} (own : OwnLabels known calls)
    (h : l ∈ usedLabels (itemsOf calls)) : l < known + made calls := by
  induction calls generalizing known with
  | nil => cases h
  | cons c rest ih =>
    cases c with
    | newLabel =>
      have hrest := ih own h
      simp only [made, List.count_cons_self] at hrest ⊢
      omega
    | emit item =>
      have hmade : made (.emit item :: rest) = made rest := rfl
      have hsplit : usedLabels (itemsOf (.emit item :: rest)) =
          usedLabels [item] ++ usedLabels (itemsOf rest) := usedLabels_append [item] _
      rw [hsplit, List.mem_append] at h
      rw [hmade]
      rcases h with h | h
      · have hlabel : item.label? = some l := by cases item <;> simp_all [usedLabels, Item.label?]
        exact Nat.lt_add_right _ (own.1 l hlabel)
      · exact ih own.2 h

/-- Whatever an assembler was asked for, it holds what was emitted, and finishing succeeds exactly if
every label was bound and every displacement fits. Then each branch leads to the last binding of its
label and nothing else was changed; otherwise the first branch that cannot be resolved is reported, or
else the first label never bound. -/
theorem finish_resolves (own : OwnLabels 0 calls) :
    ((after calls).code.toList = emitted (itemsOf calls) ∧
      (after calls).fixups.toList = fixupsFrom 0 (itemsOf calls)) ∧
    ((∃ r, (after calls).finish = .ok r) ↔
      (∀ l < made calls, l ∈ boundLabels (itemsOf calls)) ∧
        ∀ b ∈ fixupsFrom 0 (itemsOf calls), ∀ target,
          LastBound (itemsOf calls) b.label target → b.InReach target) ∧
    (∀ r, (after calls).finish = .ok r → Resolved (made calls) (itemsOf calls) r) ∧
    ∀ e, (after calls).finish = .error e ↔ FirstDefect (made calls) (itemsOf calls) e := by
  have known : ∀ l ∈ usedLabels (itemsOf calls), l < made calls :=
    fun l hl => by simpa using lt_made_of_used own hl
  have hfinish : (after calls).finish = assemble (made calls) (itemsOf calls) := by
    rw [after_eq own, assemble]
  rw [hfinish, after_eq own, after_items]
  refine ⟨⟨rfl, rfl⟩, (exists_assemble_iff known).trans (and_congr_right fun hbound => ?_),
    fun a ha => resolved_of_assemble known ha, fun e => assemble_eq_error_iff known⟩
  refine forall₂_congr fun b hb => ?_
  constructor
  · rintro ⟨target, ht, inside⟩ target' ht'
    rwa [ht'.unique ht]
  · intro hreach
    obtain ⟨target, ht⟩ := exists_lastBound (hbound _ (known _ (label_mem_usedLabels hb)))
    exact ⟨target, ht, hreach target ht⟩

/-- A label bound twice, a second one made after a branch to the first, a branch forward, one back, and
an open address between them. -/
def reboundCalls : List Call :=
  [.newLabel, .emit (.bind 0), .emit (.jump 0), .newLabel, .emit (.branch .equal 1),
    .emit (.tapeAddress .rbx), .emit (.bind 0), .emit (.jump 0), .emit (.bind 1), .emit (.plain .ret)]

theorem finish_resolves_rebound :
    OwnLabels 0 reboundCalls ∧
      ∃ r, (after reboundCalls).finish = .ok r ∧ r.labels = [21, 26] ∧ r.relocations = [13] ∧
        (after reboundCalls).fixups = #[⟨1, 0⟩, ⟨7, 1⟩, ⟨22, 0⟩] ∧
        Resolved (made reboundCalls) (itemsOf reboundCalls) r := by
  have own : OwnLabels 0 reboundCalls := by decide
  exact ⟨own, _, rfl, rfl, rfl, rfl, (finish_resolves own).2.2.1 _ rfl⟩

end Assembler

end Assembly

end TapeLang
