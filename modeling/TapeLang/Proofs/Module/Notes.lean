import Mathlib.Data.List.Induction
import TapeLang.Proofs.Module.Loading

/-!
# Notes

Notes that stand one behind the other are visited one after the other, whatever is done with them. What a
module's reader does with them comes down to the first that is wrong, or else to the last of each kind.
-/

namespace TapeLang.Module

/-! Slices. -/

theorem slice?_append (front middle back : Bytes) :
    slice? (front ++ middle ++ back).toArray front.length (front.length + middle.length) =
      some middle := by
  rw [slice?, if_pos (by simp)]
  simp

/-- From a place on, up to the end. -/
theorem slice?_drop {bytes : Bytes} {start : Nat} (h : start ≤ bytes.length) :
    slice? bytes.toArray start bytes.length = some (bytes.drop start) := by
  have hall := slice?_append (bytes.take start) (bytes.drop start) []
  rw [List.append_nil, List.take_append_drop, List.length_take_of_le h, List.length_drop,
    Nat.add_sub_cancel' h] at hall
  exact hall

theorem slice_eq {file : Array UInt8} {start stop : Nat} {part : Bytes}
    (h : slice? file start stop = some part) : slice file start stop = .ok part := by
  rw [slice, h]

theorem offset_eq {base extra : Nat} (h : base + extra < wordLimit) :
    offset base extra = .ok (base + extra) :=
  if_pos h

private theorem sumWords_eq {a b : Nat} (h : a + b < wordLimit) :
    (Refusal.ofBreach (sumWords a b) : Reading Nat) = .ok (a + b) :=
  Refusal.ofBreach_eq_ok.mpr (if_pos h)

theorem productWords_eq {a b : Nat} (h : a * b < wordLimit) :
    (Refusal.ofBreach (productWords a b) : Reading Nat) = .ok (a * b) :=
  Refusal.ofBreach_eq_ok.mpr (if_pos h)

private theorem alignWord_eq {value align : Nat} (h : alignUp value align < wordLimit) :
    (Refusal.ofBreach (alignWord value align) : Reading Nat) = .ok (alignUp value align) :=
  Refusal.ofBreach_eq_ok.mpr (if_pos h)

/-! Notes. -/

/-- The numbers of a note fit in their fields. -/
structure Note.Fits (n : Note) : Prop where
  owner : n.owner.length < 256 ^ 4
  payload : n.payload.length < 256 ^ 4
  kind : n.kind < 256 ^ 4

def Note.words (n : Note) : List (Nat × Nat) :=
  [(4, n.owner.length), (4, n.payload.length), (4, n.kind)]

theorem Note.encode_eq (n : Note) :
    n.encode = spell n.words ++ pad 4 n.owner ++ pad 4 n.payload := by
  simp [encode, spell, words]

/-- The bytes of a note in a file. What fills up its owner and its payload can be anything. -/
structure Note.WrittenAs (n : Note) (bytes : Bytes) : Prop where
  fits : n.Fits
  parts : ∃ fill fill', bytes = spell n.words ++ (n.owner ++ fill) ++ (n.payload ++ fill') ∧
    (n.owner ++ fill).length = alignUp n.owner.length 4 ∧
    (n.payload ++ fill').length = alignUp n.payload.length 4

private theorem Note.writtenAs_encode {n : Note} (fits : n.Fits) : n.WrittenAs n.encode :=
  ⟨fits, _, _, n.encode_eq, length_pad (by decide) _, length_pad (by decide) _⟩

theorem Note.WrittenAs.length_eq {n : Note} {bytes : Bytes} (h : n.WrittenAs bytes) :
    bytes.length = 12 + alignUp n.owner.length 4 + alignUp n.payload.length 4 := by
  obtain ⟨fill, fill', rfl, howner, hpayload⟩ := h.parts
  rw [List.length_append, List.length_append, howner, hpayload]
  simp [spell, Note.words]

theorem readNote_written {n : Note} {bytes : Bytes} (h : n.WrittenAs bytes) (front back : Bytes)
    (hfile : (front ++ bytes ++ back).length < wordLimit) :
    readNote (front ++ bytes ++ back).toArray front.length =
      .ok (n, front.length + bytes.length) := by
  have hlength : front.length + bytes.length < wordLimit := by
    rw [List.length_append, List.length_append] at hfile
    omega
  rw [h.length_eq] at hlength ⊢
  obtain ⟨fill, fill', rfl, hownerFill, -⟩ := h.parts
  generalize hparts :
    front ++ (spell n.words ++ (n.owner ++ fill) ++ (n.payload ++ fill')) ++ back = file at hfile ⊢
  -- The file is cut at the words, at the owner and at the payload.
  have hwords : file =
      front ++ spell n.words ++ ((n.owner ++ fill) ++ (n.payload ++ fill') ++ back) := by
    simp [← hparts]
  have howner : file =
      (front ++ spell n.words) ++ n.owner ++ (fill ++ (n.payload ++ fill') ++ back) := by
    simp [← hparts]
  have hpayload : file =
      (front ++ spell n.words ++ (n.owner ++ fill)) ++ n.payload ++ (fill' ++ back) := by
    simp [← hparts]
  have hownerAt : (front ++ spell n.words).length = front.length + 12 := by
    simp [spell, Note.words]
  have hpayloadAt : (front ++ spell n.words ++ (n.owner ++ fill)).length =
      front.length + 12 + alignUp n.owner.length 4 := by
    rw [List.length_append, hownerAt, hownerFill]
  have hread := readNat_spell front _ (hwords ▸ hfile)
  have hslice := slice?_append (front ++ spell n.words) n.owner (fill ++ (n.payload ++ fill') ++ back)
  have hslice' :=
    slice?_append (front ++ spell n.words ++ (n.owner ++ fill)) n.payload (fill' ++ back)
  rw [← hwords] at hread
  rw [← howner, hownerAt] at hslice
  rw [← hpayload, hpayloadAt] at hslice'
  have hownerSize : readNat file.toArray front.length 4 = .ok n.owner.length :=
    hread 0 rfl h.fits.owner
  have hpayloadSize : readNat file.toArray (front.length + 4) 4 = .ok n.payload.length :=
    hread 1 rfl h.fits.payload
  have hkind : readNat file.toArray (front.length + 8) 4 = .ok n.kind := hread 2 rfl h.fits.kind
  have hle := le_alignUp (by decide : 0 < 4) n.owner.length
  have hle' := le_alignUp (by decide : 0 < 4) n.payload.length
  simp only [readNote, hownerSize, hpayloadSize, hkind, Bind.bind, Except.bind,
    sumWords_eq (by omega : front.length + 4 < wordLimit),
    sumWords_eq (by omega : front.length + 8 < wordLimit),
    sumWords_eq (by omega : front.length + 12 < wordLimit),
    sumWords_eq (by omega : front.length + 12 + n.owner.length < wordLimit),
    alignWord_eq (by omega : alignUp n.owner.length 4 < wordLimit),
    alignWord_eq (by omega : alignUp n.payload.length 4 < wordLimit),
    offset_eq (by omega : front.length + 12 + alignUp n.owner.length 4 < wordLimit),
    offset_eq (by omega :
      front.length + 12 + alignUp n.owner.length 4 + n.payload.length < wordLimit),
    offset_eq (by omega :
      front.length + 12 + alignUp n.owner.length 4 + alignUp n.payload.length 4 < wordLimit),
    hslice, hslice', orMalformed, pure, Except.pure]
  rw [Nat.add_assoc, Nat.add_assoc, Nat.add_assoc]

theorem readNote_encode {n : Note} (fits : n.Fits) (front back : Bytes)
    (hfile : (front ++ n.encode ++ back).length < wordLimit) :
    readNote (front ++ n.encode ++ back).toArray front.length =
      .ok (n, front.length + n.encode.length) :=
  readNote_written (Note.writtenAs_encode fits) front back hfile

/-- Notes one behind the other. -/
inductive NotesWrittenAs : List Note → Bytes → Prop where
  | nil : NotesWrittenAs [] []
  | cons {n : Note} {rest : List Note} {bytes more : Bytes} (note : n.WrittenAs bytes)
      (next : NotesWrittenAs rest more) : NotesWrittenAs (n :: rest) (bytes ++ more)

theorem notesWrittenAs_encode {notes : List Note} (fits : ∀ n ∈ notes, n.Fits) :
    NotesWrittenAs notes (notes.flatMap Note.encode) := by
  induction notes with
  | nil => exact .nil
  | cons n rest ih =>
    rw [List.flatMap_cons]
    exact .cons (Note.writtenAs_encode (fits n List.mem_cons_self))
      (ih fun m hm => fits m (List.mem_cons_of_mem _ hm))

theorem NotesWrittenAs.length_le {notes : List Note} {bytes : Bytes} (h : NotesWrittenAs notes bytes) :
    12 * notes.length ≤ bytes.length := by
  induction h with
  | nil => exact Nat.le_refl 0
  | cons note next ih =>
    rw [List.length_append, List.length_cons, note.length_eq]
    omega

section

variable {σ : Type} (visit : σ → Note → Reading σ)

/-- A note in front of the end is visited, and the walk goes on behind it. -/
theorem walkNotes_note {n : Note} {bytes : Bytes} (h : n.WrittenAs bytes) (front back : Bytes)
    {stop : Nat} (hstop : front.length + bytes.length ≤ stop)
    (hfile : (front ++ bytes ++ back).length < wordLimit) (bound : Nat) (s : σ) :
    walkNotes visit (front ++ bytes ++ back).toArray stop (bound + 1) front.length s =
      (visit s n).bind
        (walkNotes visit (front ++ bytes ++ back).toArray stop bound (front ++ bytes).length) := by
  have hnote := readNote_written h front back hfile
  have hlength : 12 ≤ bytes.length := by
    rw [h.length_eq]
    omega
  have hwords : front.length + 12 < wordLimit := by
    rw [List.length_append, List.length_append] at hfile
    omega
  have hinside : front.length + 12 ≤ stop := by omega
  simp only [walkNotes, offset_eq hwords, Bind.bind, Except.bind, if_pos hinside, hnote,
    List.length_append]

/-- Notes are visited one after the other, up to their end. -/
theorem walkNotes_eq {notes : List Note} {bytes : Bytes} (h : NotesWrittenAs notes bytes)
    (front back : Bytes) {bound : Nat} (hbound : notes.length < bound)
    (hfile : (front ++ bytes ++ back).length + 12 < wordLimit) (s : σ) :
    walkNotes visit (front ++ bytes ++ back).toArray (front.length + bytes.length) bound front.length
        s = notes.foldlM visit s := by
  induction h generalizing front bound s with
  | nil =>
    obtain ⟨bound, rfl⟩ := Nat.exists_eq_succ_of_ne_zero (Nat.ne_of_gt hbound)
    have hwords : front.length + 12 < wordLimit := by
      rw [List.length_append, List.length_append] at hfile
      omega
    simp only [walkNotes, offset_eq hwords, Bind.bind, Except.bind, List.length_nil, Nat.add_zero]
    rw [if_neg (by omega)]
    rfl
  | @cons n rest bytes more note next ih =>
    obtain ⟨bound, rfl⟩ := Nat.exists_eq_succ_of_ne_zero (Nat.ne_of_gt (Nat.zero_lt_of_lt hbound))
    have hrest := ih (front ++ bytes) (Nat.lt_of_succ_lt_succ hbound)
    -- The same file with the note in the middle, and with the note in front.
    have hmiddle : front ++ (bytes ++ more) ++ back = front ++ bytes ++ (more ++ back) := by
      simp
    have hfront : front ++ bytes ++ more ++ back = front ++ bytes ++ (more ++ back) := by
      simp
    have hstop : front.length + (bytes ++ more).length = (front ++ bytes).length + more.length := by
      simp [Nat.add_assoc]
    rw [hmiddle] at hfile ⊢
    rw [hfront] at hrest
    rw [hstop, walkNotes_note visit note front (more ++ back)
      (by rw [List.length_append]; omega) (by omega), List.foldlM_cons]
    cases visit s n with
    | error r => rfl
    | ok s' => exact hrest hfile s'

end

/-! What notes say. -/

namespace Note

/-- Whether the note is a module's own, of a kind. -/
def isOwn (kind : Nat) (n : Note) : Bool :=
  n.owner = moduleOwner ∧ n.kind = kind

/-- The payload as a text. -/
def text? (n : Note) : Option String :=
  String.fromUTF8? ⟨n.payload.toArray⟩

/-- A name that is no text, or a digest of another length. -/
def defect? (n : Note) : Option Defect :=
  if n.isOwn kindName ∧ n.text? = none then some .nameNotText
  else if n.isOwn kindDigest ∧ n.payload.length ≠ 32 then some .digestLength
  else none

end Note

/-- The last of a module's own notes of a kind. -/
def lastOwn? (kind : Nat) (notes : List Note) : Option Note :=
  notes.reverse.find? (Note.isOwn kind)

/-- A note that is not wrong replaces the one of its kind before. -/
theorem Described.note_eq (d : Described) (n : Note) :
    d.note n = match n.defect? with
      | some e => malformed e
      | none => .ok ⟨if n.isOwn Note.kindName then n.text? else d.name,
          if n.isOwn Note.kindDigest then some n.payload else d.digest⟩ := by
  have hkinds : Note.kindName ≠ Note.kindDigest := by decide
  by_cases own : n.owner = Note.moduleOwner
  · by_cases isName : n.kind = Note.kindName
    · cases htext : String.fromUTF8? ⟨n.payload.toArray⟩ <;>
        simp [note, Note.defect?, Note.isOwn, Note.text?, own, isName, hkinds, htext]
    · by_cases isDigest : n.kind = Note.kindDigest
      · by_cases hlength : n.payload.length = 32 <;>
          simp [note, Note.defect?, Note.isOwn, own, isDigest, hkinds.symm, hlength]
      · simp [note, Note.defect?, Note.isOwn, own, isName, isDigest]
  · simp [note, Note.defect?, Note.isOwn, own]

private theorem lastOwn?_concat (kind : Nat) (notes : List Note) (n : Note) :
    lastOwn? kind (notes ++ [n]) = if n.isOwn kind then some n else lastOwn? kind notes := by
  rw [lastOwn?, List.reverse_append, List.reverse_singleton, List.singleton_append, List.find?_cons,
    lastOwn?]
  cases n.isOwn kind <;> rfl

/-- The last name and the last digest. -/
def summary (notes : List Note) : Described :=
  ⟨(lastOwn? Note.kindName notes).bind Note.text?, (lastOwn? Note.kindDigest notes).map Note.payload⟩

private theorem summary_concat (notes : List Note) (n : Note) :
    summary (notes ++ [n]) = ⟨if n.isOwn Note.kindName then n.text? else (summary notes).name,
      if n.isOwn Note.kindDigest then some n.payload else (summary notes).digest⟩ := by
  rw [summary, lastOwn?_concat, lastOwn?_concat, apply_ite (Option.bind · Note.text?),
    apply_ite (Option.map Note.payload)]
  rfl

/-- Notes are taken in up to the first that is wrong. -/
theorem foldlM_note_eq (notes : List Note) :
    notes.foldlM Described.note {} = match notes.findSome? Note.defect? with
      | some d => malformed d
      | none => .ok (summary notes) := by
  induction notes using List.reverseRecOn with
  | nil => rfl
  | append_singleton notes n ih =>
    rw [List.foldlM_append, ih, List.findSome?_append]
    cases notes.findSome? Note.defect? with
    | some d => rfl
    | none =>
      have hstep : [n].foldlM Described.note (summary notes) = (summary notes).note n := by
        simp
      show [n].foldlM Described.note (summary notes) = _
      rw [hstep, Described.note_eq, Option.none_or, List.findSome?_singleton, summary_concat]

theorem fromUTF8?_textBytes (name : String) :
    String.fromUTF8? ⟨(textBytes name).toArray⟩ = some name := by
  have hbytes : (⟨(textBytes name).toArray⟩ : ByteArray) = name.toByteArray := by
    simp [textBytes]
  rw [hbytes, String.fromUTF8?, dif_pos name.isValidUTF8]
  rfl

private theorem textBytes_of_fromUTF8? {payload : Bytes} {name : String}
    (h : String.fromUTF8? ⟨payload.toArray⟩ = some name) : payload = textBytes name := by
  unfold String.fromUTF8? at h
  split at h
  next =>
    rw [← Option.some.inj h]
    rfl
  next => cases h

/-- Where no note is wrong, the last name is a text. -/
theorem textBytes_summary_name {notes : List Note} (h : notes.findSome? Note.defect? = none) :
    (summary notes).name.map textBytes = (lastOwn? Note.kindName notes).map Note.payload := by
  rw [summary]
  cases hlast : lastOwn? Note.kindName notes with
  | none => rfl
  | some n =>
    have own : n.isOwn Note.kindName = true := List.find?_some hlast
    have hmem : n ∈ notes := List.mem_reverse.mp (List.mem_of_find?_eq_some hlast)
    have sound := List.findSome?_eq_none_iff.mp h n hmem
    cases htext : n.text? with
    | none => simp [Note.defect?, own, htext] at sound
    | some name => simp [htext, textBytes_of_fromUTF8? htext]

end TapeLang.Module
