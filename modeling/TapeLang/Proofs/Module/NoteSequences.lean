import TapeLang.Proofs.Module.Inspection

/-!
# Notes of any kind

A module file can carry notes besides its own two, in any number and order. The reader comes to each of them
once, and what it makes of the file is said here without it: the first note that is wrong, or else the last
one of each kind and the code. Notes of other owners and of other kinds might as well not be there.
-/

namespace TapeLang.Module

open Native

/-- Whether the note says anything about a module. -/
def Note.counts (n : Note) : Bool :=
  n.isOwn kindName || n.isOwn kindDigest

/-- What notes and code make of a file. -/
def verdict (hash : Hash) (entry capacity : Nat) (code : Bytes) (notes : List Note) :
    Reading ModuleInfo :=
  match notes.findSome? Note.defect? with
  | some d => malformed d
  | none =>
    match (lastOwn? Note.kindName notes).bind Note.text?, lastOwn? Note.kindDigest notes with
    | none, _ => malformed .noName
    | some _, none => malformed .noDigest
    | some name, some digest =>
      if hash.digest code = digest.payload then .ok ⟨name, digest.payload, entry, capacity⟩
      else malformed .digestMismatch

/-! Notes that do not count. -/

theorem Note.counts_of_isOwn {n : Note} {kind : Nat} (h : kind = kindName ∨ kind = kindDigest)
    (own : n.isOwn kind) : n.counts := by
  rcases h with rfl | rfl <;> simp [counts, own]

private theorem Note.defect?_of_not_counts {n : Note} (h : ¬ n.counts) : n.defect? = none := by
  simp only [counts, Bool.or_eq_true, not_or] at h
  simp [defect?, h.1, h.2]

private theorem findSome?_filter_counts (notes : List Note) :
    (notes.filter Note.counts).findSome? Note.defect? = notes.findSome? Note.defect? := by
  induction notes with
  | nil => rfl
  | cons n rest ih =>
    by_cases hn : n.counts
    · rw [List.filter_cons_of_pos hn, List.findSome?_cons, List.findSome?_cons, ih]
    · rw [List.filter_cons_of_neg hn, List.findSome?_cons, Note.defect?_of_not_counts hn, ih]

private theorem lastOwn?_filter_counts {kind : Nat} (h : kind = Note.kindName ∨ kind = Note.kindDigest)
    (notes : List Note) : lastOwn? kind (notes.filter Note.counts) = lastOwn? kind notes := by
  rw [lastOwn?, ← List.filter_reverse, List.find?_filter, lastOwn?]
  congr 1
  funext n
  by_cases own : n.isOwn kind
  · simp [own, Note.counts_of_isOwn h own]
  · simp [own]

theorem verdict_filter_counts (hash : Hash) (entry capacity : Nat) (code : Bytes)
    (notes : List Note) : verdict hash entry capacity code (notes.filter Note.counts) =
      verdict hash entry capacity code notes := by
  rw [verdict, findSome?_filter_counts, lastOwn?_filter_counts (.inl rfl),
    lastOwn?_filter_counts (.inr rfl), verdict]

/-- What is made of notes once they are taken in. -/
theorem foldlM_note_bind_conclude (hash : Hash) (entry capacity : Nat) (code : Bytes)
    (notes : List Note) :
    (notes.foldlM Described.note {} >>= fun d => d.conclude hash entry capacity code) =
      verdict hash entry capacity code notes := by
  rw [foldlM_note_eq, verdict]
  cases notes.findSome? Note.defect? with
  | some d => rfl
  | none =>
    show (summary notes).conclude hash entry capacity code = _
    rw [summary]
    cases (lastOwn? Note.kindName notes).bind Note.text? with
    | none => rfl
    | some name =>
      cases lastOwn? Note.kindDigest notes with
      | none => rfl
      | some digest =>
        by_cases hdigest : hash.digest code = digest.payload
        · simp [Described.conclude, orMalformed, hdigest, Bind.bind, Except.bind, pure, Except.pure]
        · simp [Described.conclude, orMalformed, hdigest, malformed, Bind.bind, Except.bind]

/-! Files. -/

/-- The parts of a file: what its headers say, the note segment, what fills it up to the code, and the
code. -/
structure NotedFile where
  entry : Nat
  capacity : Nat
  segment : Bytes
  gap : Bytes
  code : Bytes
  deriving DecidableEq

namespace NotedFile

/-- Offsets, sizes and addresses as they follow from the parts. -/
def geometry (f : NotedFile) : Geometry :=
  let codeOffset := alignUp (headersSize + f.segment.length) codeAlignment
  let fileSize := codeOffset + f.code.length
  ⟨f.segment.length, codeOffset, fileSize, alignUp (baseAddress + fileSize) pageSize⟩

def bytes (f : NotedFile) : Bytes :=
  f.geometry.headers f.entry f.capacity ++ f.segment ++ f.gap ++ f.code

/-- The file carries notes: they are its note segment, and the code is at the next aligned offset. -/
structure Carries (f : NotedFile) (notes : List Note) : Prop where
  segment : NotesWrittenAs notes f.segment
  gap : headersSize + f.segment.length + f.gap.length = f.geometry.codeOffset
  tape_lt : f.geometry.tapeAddress < wordLimit
  capacity_lt : f.capacity < wordLimit
  entry_lt : f.entry < wordLimit

theorem length_headers (f : NotedFile) :
    (f.geometry.headers f.entry f.capacity).length = headersSize :=
  f.geometry.length_headers f.entry f.capacity

namespace Carries

variable {f : NotedFile} {notes : List Note}

theorem length_bytes (h : f.Carries notes) : f.bytes.length = f.geometry.fileSize := by
  have hgap := h.gap
  rw [bytes, List.length_append, List.length_append, List.length_append, length_headers, hgap]
  rfl

theorem fileSize_lt (h : f.Carries notes) : baseAddress + f.geometry.fileSize < wordLimit :=
  Nat.lt_of_le_of_lt (le_alignUp (by decide) _) h.tape_lt

theorem spells (h : f.Carries notes) : f.geometry.Spells f.entry f.capacity where
  code_lt := by
    have hfile := h.fileSize_lt
    have hsize : f.geometry.fileSize =
        alignUp (headersSize + f.geometry.notesSize) codeAlignment + f.code.length := rfl
    omega
  file_lt := Nat.lt_of_le_of_lt (Nat.le_add_left _ _) h.fileSize_lt
  tape_lt := h.tape_lt
  capacity_lt := h.capacity_lt
  entry_lt := h.entry_lt

/-- Whatever is done with notes is done with these, in this order. -/
theorem walkNotes (h : f.Carries notes) {σ : Type} (visit : σ → Note → Reading σ) (s : σ) :
    walkNotes visit f.bytes.toArray (headersSize + f.segment.length) (f.bytes.length + 1) headersSize
        s = notes.foldlM visit s := by
  have hsplit : f.bytes = f.geometry.headers f.entry f.capacity ++ f.segment ++ (f.gap ++ f.code) := by
    rw [bytes, List.append_assoc]
  have hbound : notes.length < f.bytes.length + 1 := by
    have hle := h.segment.length_le
    rw [hsplit, List.length_append, List.length_append]
    omega
  have hlimit : f.bytes.length + 12 < wordLimit := by
    have hlt := h.fileSize_lt
    have hbase : baseAddress = 0x400000 := rfl
    rw [h.length_bytes]
    omega
  rw [hsplit] at hbound hlimit ⊢
  rw [← length_headers f]
  exact walkNotes_eq visit h.segment _ _ hbound hlimit s

theorem drop_bytes (h : f.Carries notes) :
    f.bytes.drop (alignUp (headersSize + f.segment.length) codeAlignment) = f.code := by
  have hlength : (f.geometry.headers f.entry f.capacity ++ f.segment ++ f.gap).length =
      alignUp (headersSize + f.segment.length) codeAlignment := by
    rw [List.length_append, List.length_append, length_headers]
    exact h.gap
  rw [bytes, ← hlength, List.drop_left]

/-- The notes and the code decide. -/
theorem inspect (h : f.Carries notes) (hash : Hash) :
    inspect hash f.bytes = verdict hash f.entry f.capacity f.code notes := by
  have hsplit : f.bytes =
      f.geometry.headers f.entry f.capacity ++ (f.segment ++ f.gap ++ f.code) := by
    rw [bytes, List.append_assoc, List.append_assoc, List.append_assoc]
  have hnotes : f.geometry.notesSize ≤ (f.segment ++ f.gap ++ f.code).length := by
    rw [List.length_append, List.length_append]
    exact Nat.le_trans (Nat.le_add_right _ _) (Nat.le_add_right _ _)
  have hread := h.spells.inspect hash _ hnotes
  rw [← hsplit] at hread
  rw [hread, ← foldlM_note_bind_conclude, ← h.walkNotes Described.note {}]
  show (readNotes _ (headersSize + f.segment.length) _ _ _ >>= fun d =>
    d.conclude hash f.entry f.capacity
      (f.bytes.drop (alignUp (headersSize + f.segment.length) codeAlignment))) = _
  rw [h.drop_bytes]
  rfl

end Carries

end NotedFile

/-- A linked module is a file that carries its name and the digest of its code. -/
theorem Linkable.exists_carries {code : MachineCode} {name : String} {capacity : Nat}
    (h : Linkable code name capacity) (hash : Hash) :
    ∃ f : NotedFile, link hash code name capacity = .ok f.bytes ∧ f.capacity = capacity ∧
      f.Carries (moduleNotes (textBytes name) (hash.digest f.code)) := by
  obtain ⟨header, bytes, padding, image, -, -, -, hlink, -, w⟩ := h.exists_written hash rfl
  generalize hg : geometry (textBytes name).length code.bytes.length = g at w
  generalize baseAddress + (g.codeOffset + code.entry) = entry at w
  let f : NotedFile := ⟨entry, capacity,
    (moduleNotes (textBytes name) (hash.digest bytes)).flatMap Note.encode, padding, bytes⟩
  have hgeometry : f.geometry = g := by
    have hnotes := length_notes (textBytes name) (hash.digest bytes) bytes.length
      (hash.length_digest bytes)
    rw [w.geometry]
    simp only [NotedFile.geometry, f, hnotes]
    rfl
  have hbytes : f.bytes = image := by
    rw [w.parts, NotedFile.bytes, hgeometry]
    rfl
  refine ⟨f, hbytes ▸ hlink, rfl,
    notesWrittenAs_encode (fits_moduleNotes w.name_lt (hash.length_digest bytes)), ?_,
    hgeometry ▸ w.tape_lt, w.capacity_lt, w.entry_lt⟩
  rw [hgeometry, ← w.offset, List.length_append, w.headed.length_eq, ← w.headed.length_notes]

/-- A file can carry any notes. Each of them is visited once, in the order of the file. The first that is
wrong makes the file malformed; if none is, the last name and the last digest are used, and both have to be
there. Two files with the same notes that count are the same to the reader. Linked modules are files of this
kind. -/
theorem inspect_any_notes (hash : Hash) :
    (∀ (f : NotedFile) (notes : List Note), f.Carries notes →
      (∀ (σ : Type) (visit : σ → Note → Reading σ) (s : σ),
        walkNotes visit f.bytes.toArray (headersSize + f.segment.length) (f.bytes.length + 1)
          headersSize s = notes.foldlM visit s) ∧
      inspect hash f.bytes = verdict hash f.entry f.capacity f.code notes ∧
      ∀ (f' : NotedFile) (notes' : List Note), f'.Carries notes' → f'.entry = f.entry →
        f'.capacity = f.capacity → f'.code = f.code →
        notes'.filter Note.counts = notes.filter Note.counts →
          inspect hash f'.bytes = inspect hash f.bytes) ∧
    ∀ code name capacity, Linkable code name capacity →
      ∃ f : NotedFile, link hash code name capacity = .ok f.bytes ∧ f.capacity = capacity ∧
        f.Carries (moduleNotes (textBytes name) (hash.digest f.code)) := by
  refine ⟨fun f notes h => ⟨fun σ visit s => h.walkNotes visit s, h.inspect hash, ?_⟩,
    fun code name capacity h => h.exists_carries hash⟩
  intro f' notes' h' hentry hcapacity hcode hcounts
  rw [h'.inspect, h.inspect, hentry, hcapacity, hcode, ← verdict_filter_counts, hcounts,
    verdict_filter_counts]

/-- Notes of others, of another kind, and of an owner without its final zero stand between a name and a
digest that are replaced later. -/
def mixedNotes : List Note :=
  [⟨[0x47, 0x4E, 0x55, 0], Note.kindName, [0xFF, 0xFE, 0xFD, 0xFC, 0xFB]⟩,
    ⟨Note.moduleOwner, Note.kindName, textBytes "old"⟩,
    ⟨Note.moduleOwner, Note.kindDigest, List.replicate 32 0⟩,
    ⟨Note.moduleOwner, 7, [0xFF]⟩,
    ⟨Note.moduleOwner, Note.kindDigest, Digest.blake3 [0xEB, 0xFE]⟩,
    ⟨[0x42, 0x46, 0x4A, 0x49, 0x54], Note.kindDigest, []⟩,
    ⟨Note.moduleOwner, Note.kindName, textBytes "né"⟩]

def mixedFile : NotedFile :=
  ⟨0x4001D0, 30000, mixedNotes.flatMap Note.encode, List.replicate 12 0xCC, [0xEB, 0xFE]⟩

theorem inspect_any_notes_mixed :
    mixedFile.Carries mixedNotes ∧
      inspect .blake3 mixedFile.bytes =
        .ok ⟨"né", Digest.blake3 [0xEB, 0xFE], 0x4001D0, 30000⟩ := by
  have fits : ∀ n ∈ mixedNotes,
      n.owner.length < 256 ^ 4 ∧ n.payload.length < 256 ^ 4 ∧ n.kind < 256 ^ 4 := by
    decide +kernel
  have h : mixedFile.Carries mixedNotes := by
    refine ⟨notesWrittenAs_encode fun n hn => ?_, by decide +kernel, by decide +kernel, by decide,
      by decide⟩
    obtain ⟨owner, payload, kind⟩ := fits n hn
    exact ⟨owner, payload, kind⟩
  refine ⟨h, ((inspect_any_notes .blake3).1 mixedFile mixedNotes h).2.1.trans ?_⟩
  decide +kernel

end TapeLang.Module
