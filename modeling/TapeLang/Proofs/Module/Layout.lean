import TapeLang.Proofs.Module.Inspection
import Mathlib.Order.Bounds.Basic

/-!
# The layout of a linked file

Sizes and addresses are worked out before a byte is written. The bytes that are written then agree with
them: a loader finds segments that hold the whole file and a tape on pages of its own, the notes fill
their range, and the code stands where the entry says, changed only where addresses were left open.
-/

namespace TapeLang

/-- Rounding up gives the least multiple that is large enough. -/
theorem isLeast_alignUp {align : Nat} (h : 0 < align) (value : Nat) :
    IsLeast { a | align ∣ a ∧ value ≤ a } (alignUp value align) := by
  refine ⟨⟨Nat.dvd_mul_left _ _, Module.le_alignUp h value⟩, ?_⟩
  rintro a ⟨⟨k, rfl⟩, hle⟩
  have hk : (value + (align - 1)) / align ≤ k := by
    apply Nat.le_of_lt_succ
    rw [Nat.div_lt_iff_lt_mul h, Nat.succ_mul, Nat.mul_comm]
    omega
  rw [alignUp, Nat.mul_comm]
  exact Nat.mul_le_mul_left align hk

namespace Module

open Native

/-- An address inside a segment. -/
def Segment.Holds (s : Segment) (address : Nat) : Prop :=
  s.address ≤ address ∧ address < s.address + s.memorySize

/-- A file agrees with the segments it declares and with the code it was made from. -/
structure Consistent (hash : Hash) (code : MachineCode) (name : String) (capacity : Nat) (image : Bytes)
    (load tape note : Segment) (codeAt : Nat) : Prop where
  segments : readSegments image.toArray = .ok [load, tape, note]
  kinds : load.kind = kindLoad ∧ tape.kind = kindLoad ∧ note.kind = kindNote
  /-- The first segment is the whole file. -/
  load_file : load.offset = 0 ∧ load.fileSize = image.length ∧ load.memorySize = image.length
  tape_size : tape.fileSize = 0 ∧ tape.memorySize = capacity
  load_address : load.address = 0x400000
  tape_address : IsLeast { a | 0x1000 ∣ a ∧ 0x400000 + image.length ≤ a } tape.address
  pages : ∀ a b, load.Holds a → tape.Holds b → a / 0x1000 ≠ b / 0x1000
  congruent : load.offset % 0x1000 = load.address % 0x1000 ∧
    tape.offset % 0x1000 = tape.address % 0x1000
  code_aligned : 16 ∣ codeAt
  code_end : codeAt + code.bytes.length = image.length
  entry : readNat image.toArray 24 8 = .ok (load.address + codeAt + code.entry)
  entry_holds : load.Holds (load.address + codeAt + code.entry)
  /-- A note with the name, behind it one with the digest of the code, and there the range ends. -/
  notes : ∃ middle stored, slice? image.toArray codeAt image.length = some stored ∧
    readNote image.toArray note.offset =
      .ok (⟨Note.moduleOwner, Note.kindName, textBytes name⟩, middle) ∧
    readNote image.toArray middle =
      .ok (⟨Note.moduleOwner, Note.kindDigest, hash.digest stored⟩, note.offset + note.fileSize)
  gap : note.offset + note.fileSize ≤ codeAt ∧ codeAt < note.offset + note.fileSize + 16
  zeros : ∀ i, note.offset + note.fileSize ≤ i → i < codeAt → image[i]? = some 0
  patched : ∀ r ∈ code.relocations, readNat image.toArray (codeAt + r) 8 = .ok tape.address
  kept : ∀ i < code.bytes.length, (∀ r ∈ code.relocations, i < r ∨ r + 8 ≤ i) →
    image[codeAt + i]? = code.bytes[i]?

namespace Written

variable {hash : Hash} {g : Geometry} {entry capacity : Nat} {name : String}
  {padding code image : Bytes}

/-- Each note is read where the one before it ends. -/
theorem readNote (w : Written hash g entry capacity name padding code image) :
    ∃ middle, readNote image.toArray headersSize =
        .ok (⟨Note.moduleOwner, Note.kindName, textBytes name⟩, middle) ∧
      readNote image.toArray middle =
        .ok (⟨Note.moduleOwner, Note.kindDigest, hash.digest code⟩, headersSize + g.notesSize) := by
  let headers := fileHeader entry ++ (g.segments capacity).flatMap Segment.encode
  let first : Note := ⟨Note.moduleOwner, Note.kindName, textBytes name⟩
  let second : Note := ⟨Note.moduleOwner, Note.kindDigest, hash.digest code⟩
  have hfits := fits_moduleNotes w.name_lt (hash.length_digest code)
  have hheaders : headers.length = headersSize := g.length_headers entry capacity
  have hnotes : first.encode.length + second.encode.length = g.notesSize := by
    have hlength := length_notes (textBytes name) _ code.length (hash.length_digest code)
    rw [← w.geometry] at hlength
    rw [← hlength]
    simp [moduleNotes, first, second]
  have hsplit : image = headers ++ first.encode ++ (second.encode ++ padding ++ code) := by
    rw [w.parts, Geometry.front]
    simp [moduleNotes, headers, first, second]
  have hsplit' : image = (headers ++ first.encode) ++ second.encode ++ (padding ++ code) := by
    rw [hsplit]
    simp only [List.append_assoc]
  have hfirst := readNote_encode (hfits first List.mem_cons_self) headers _ (hsplit ▸ w.length_lt)
  have hsecond := readNote_encode (hfits second (List.mem_cons_of_mem _ List.mem_cons_self))
    (headers ++ first.encode) _ (hsplit' ▸ w.length_lt)
  rw [← hsplit, hheaders] at hfirst
  rw [← hsplit', List.length_append, hheaders, Nat.add_assoc, hnotes] at hsecond
  exact ⟨_, hfirst, hsecond⟩

private theorem zeros_between (w : Written hash g entry capacity name padding code image) {i : Nat}
    (hi : headersSize + g.notesSize ≤ i) (hlt : i < g.codeOffset) : image[i]? = some 0 := by
  have hfront := w.headed.length_eq
  have hoffset := w.offset
  have hlength := List.length_append ▸ w.offset
  rw [w.parts, List.getElem?_append_left (by omega), List.getElem?_append_right (by omega),
    List.getElem?_eq_getElem (by omega), w.zeros _ (List.getElem_mem _)]

end Written

private theorem isLeast_tapeAddress (nameSize codeSize : Nat) :
    IsLeast { a | pageSize ∣ a ∧ baseAddress + (geometry nameSize codeSize).fileSize ≤ a }
      (geometry nameSize codeSize).tapeAddress :=
  isLeast_alignUp (by decide) _

/-- Less than one unit of alignment is left between the notes and the code. -/
theorem codeOffset_bounds (nameSize codeSize : Nat) :
    headersSize + (geometry nameSize codeSize).notesSize ≤ (geometry nameSize codeSize).codeOffset ∧
      (geometry nameSize codeSize).codeOffset <
        headersSize + (geometry nameSize codeSize).notesSize + codeAlignment := by
  have hoffset : (geometry nameSize codeSize).codeOffset =
      alignUp (headersSize + (geometry nameSize codeSize).notesSize) codeAlignment := rfl
  have hup := alignUp_le (headersSize + (geometry nameSize codeSize).notesSize) codeAlignment
  have halign : codeAlignment = 16 := rfl
  rw [hoffset]
  exact ⟨le_alignUp (by decide) _, by omega⟩

/-- The first page behind a file is behind every page of the file. -/
theorem page_lt {size address a b : Nat}
    (least : IsLeast { a | 0x1000 ∣ a ∧ 0x400000 + size ≤ a } address) (ha : a < 0x400000 + size)
    (hb : address ≤ b) : a / 0x1000 < b / 0x1000 := by
  obtain ⟨⟨k, hk⟩, hle⟩ := least.1
  omega

private theorem readNat_of_window {header stored : Bytes} {r value : Nat}
    (window : (stored.drop r).take 8 = Bytes.ofNat 8 value) (hr : r + 8 ≤ stored.length)
    (hvalue : value < wordLimit) (hfile : (header ++ stored).length < wordLimit) :
    readNat (header ++ stored).toArray (header.length + r) 8 = .ok value := by
  have hsplit : header ++ stored =
      (header ++ stored.take r) ++ Bytes.ofNat 8 value ++ (stored.drop r).drop 8 := by
    rw [← window, List.append_assoc, List.take_append_drop, List.append_assoc,
      List.take_append_drop]
  have hlength : (header ++ stored.take r).length = header.length + r := by
    rw [List.length_append, List.length_take_of_le (by omega)]
  rw [hsplit] at hfile ⊢
  rw [← hlength]
  exact readNat_eq _ _ hvalue hfile

/-- Linking lays out a consistent file, for all code whose entry and open addresses are inside it and do
not overlap, as long as the address behind the file is a word. -/
theorem link_consistent (hash : Hash) {code : MachineCode} {name : String} {capacity : Nat}
    (entry : code.entry < code.bytes.length)
    (inside : ∀ r ∈ code.relocations, r + 8 ≤ code.bytes.length)
    (apart : code.relocations.Pairwise fun r s => r + 8 ≤ s ∨ s + 8 ≤ r)
    (name_lt : (textBytes name).length < 2 ^ 32) (capacity_lt : capacity < wordLimit)
    (tape_lt : (geometry (textBytes name).length code.bytes.length).tapeAddress < wordLimit) :
    ∃ image load tape note codeAt, link hash code name capacity = .ok image ∧
      Consistent hash code name capacity image load tape note codeAt := by
  generalize hg : geometry (textBytes name).length code.bytes.length = g at tape_lt
  have hfile : g.fileSize = g.codeOffset + code.bytes.length := by
    rw [← hg]
    rfl
  have hleast : IsLeast { a | pageSize ∣ a ∧ baseAddress + g.fileSize ≤ a } g.tapeAddress :=
    hg ▸ isLeast_tapeAddress _ _
  have hbase : baseAddress = 0x400000 := rfl
  have hentry : baseAddress + (g.codeOffset + code.entry) < wordLimit := by
    have hle := hleast.1.2
    omega
  obtain ⟨header, stored, padding, image, hheader, hstored, rfl, hlink, hpatch, w⟩ :=
    exists_written hash hg.symm inside name_lt tape_lt capacity_lt hentry
  have hlength := w.length_eq
  have hfilled := filled_of_patch hpatch
  refine ⟨_, g.codeSegment, g.tapeSegment capacity, g.noteSegment, g.codeOffset, hlink, ?_⟩
  constructor
  case segments => exact w.readSegments
  case kinds => exact ⟨rfl, rfl, rfl⟩
  case load_file => exact ⟨rfl, hlength.symm, hlength.symm⟩
  case tape_size => exact ⟨rfl, rfl⟩
  case load_address => rfl
  case tape_address =>
    rw [hlength]
    exact hleast
  case pages =>
    rintro a b ⟨-, ha⟩ ⟨hb, -⟩
    exact Nat.ne_of_lt (page_lt hleast ha hb)
  case congruent =>
    exact ⟨(by decide : 0 % pageSize = baseAddress % pageSize),
      (Nat.mod_eq_zero_of_dvd hleast.1.1).symm⟩
  case code_aligned =>
    rw [← hg]
    exact Nat.dvd_mul_left _ _
  case code_end => rw [hlength, hfile]
  case entry =>
    obtain ⟨-, -, -, -, hread, -⟩ := w.headed.readHeader (padding ++ stored)
    rw [← List.append_assoc, ← w.parts, ← Nat.add_assoc] at hread
    exact hread
  case entry_holds =>
    refine ⟨Nat.le_trans (Nat.le_add_right _ _) (Nat.le_add_right _ _), ?_⟩
    show baseAddress + g.codeOffset + code.entry < baseAddress + g.fileSize
    omega
  case notes =>
    obtain ⟨middle, hfirst, hsecond⟩ := w.readNote
    refine ⟨middle, stored, ?_, hfirst, hsecond⟩
    rw [slice?_drop (by omega), List.drop_left' hheader]
  case gap =>
    rw [← hg]
    exact codeOffset_bounds _ _
  case zeros => exact fun i hi hlt => w.zeros_between hi hlt
  case patched =>
    intro r hr
    have hwindow := hfilled.window apart hr
    rw [Bytes.ofUInt64, UInt64.toNat_ofNat_of_lt' tape_lt] at hwindow
    rw [← hheader]
    exact readNat_of_window hwindow (hstored ▸ inside r hr) tape_lt w.length_lt
  case kept =>
    intro i hi hout
    rw [List.getElem?_append_right (by omega), hheader, Nat.add_sub_cancel_left]
    exact hfilled.kept hout

/-- An entry in the middle of the code, open addresses in no order, and a name that needs padding. -/
theorem link_consistent_unordered :
    [12, 2].Pairwise (fun r s => r + 8 ≤ s ∨ s + 8 ≤ r) ∧
      ∃ image load tape note codeAt,
        link .blake3 ⟨List.replicate 21 0x90, 7, [12, 2], []⟩ "né" 30000 = .ok image ∧
          Consistent .blake3 ⟨List.replicate 21 0x90, 7, [12, 2], []⟩ "né" 30000 image load tape note
            codeAt := by
  have apart : [12, 2].Pairwise (fun r s => r + 8 ≤ s ∨ s + 8 ≤ r) := by decide
  exact ⟨apart, link_consistent .blake3 (by decide) (by decide) apart (by decide +kernel) (by decide)
    (by decide +kernel)⟩

end Module

end TapeLang
