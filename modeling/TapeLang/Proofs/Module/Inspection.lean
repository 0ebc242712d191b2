import TapeLang.Proofs.Module.Notes

/-!
# Inspecting linked modules

Reading a module back gives what it was linked from. The reader follows the offsets it finds in the
file, so each part is read where the writer put it: headers, notes and code are taken in turn.
-/

namespace TapeLang

open X86 Assembly

namespace Module

open Native

/-! Headers. -/

theorem readNat_eq_ok {file : Array UInt8} {start count value : Nat}
    (h : readNat file start count = .ok value) : start + count < wordLimit := by
  obtain ⟨stop, hstop, -⟩ := Except.bind_eq_ok.mp h
  unfold offset at hstop
  split at hstop
  next hlt => exact hlt
  next => cases hstop

private theorem readSegment_eq_ok {file : Array UInt8} {header : Nat} {s : Segment}
    (h : readSegment file header = .ok s) :
    header + 56 < wordLimit ∧ readNat file header 4 = .ok s.kind ∧
      readNat file (header + 4) 4 = .ok s.flags ∧ readNat file (header + 8) 8 = .ok s.offset ∧
      readNat file (header + 32) 8 = .ok s.fileSize ∧
      readNat file (header + 40) 8 = .ok s.memorySize := by
  obtain ⟨kind, hkind, h⟩ := Except.bind_eq_ok.mp h
  obtain ⟨flags, hflags, h⟩ := Except.bind_eq_ok.mp h
  obtain ⟨start, hstart, h⟩ := Except.bind_eq_ok.mp h
  obtain ⟨address, -, h⟩ := Except.bind_eq_ok.mp h
  obtain ⟨fileSize, hfileSize, h⟩ := Except.bind_eq_ok.mp h
  obtain ⟨memorySize, hmemorySize, h⟩ := Except.bind_eq_ok.mp h
  obtain ⟨align, halign, h⟩ := Except.bind_eq_ok.mp h
  obtain rfl := Except.ok.inj h
  have hlimit : header + 48 + 8 < wordLimit := readNat_eq_ok halign
  exact ⟨hlimit, hkind, hflags, hstart, hfileSize, hmemorySize⟩

/-- What a program header adds. -/
def Located.segment (found : Located) (s : Segment) : Located :=
  if s.kind = kindNote then { found with notes := some (s.offset, s.fileSize) }
  else if s.kind = kindLoad ∧ s.flags / flagWrite % 2 = 1 then
    { found with capacity := some s.memorySize }
  else found

private theorem locate_of_readSegment {file : Array UInt8} {table i : Nat} {s : Segment}
    (h : readSegment file (table + i * programHeaderSize) = .ok s) (found : Located) :
    locate file table found i = .ok (found.segment s) := by
  obtain ⟨hlimit, hkind, hflags, hstart, hfileSize, hmemorySize⟩ := readSegment_eq_ok h
  generalize hheader : table + i * programHeaderSize = header at *
  have hat : offset table (i * programHeaderSize) = .ok header := by
    rw [offset_eq (by omega), hheader]
  simp only [locate, productWords_eq (by omega : i * programHeaderSize < wordLimit), hat, Bind.bind,
    Except.bind, hkind, hflags, hstart, hfileSize, hmemorySize,
    offset_eq (by omega : header + 4 < wordLimit), offset_eq (by omega : header + 8 < wordLimit),
    offset_eq (by omega : header + 32 < wordLimit), offset_eq (by omega : header + 40 < wordLimit),
    pure, Except.pure, Located.segment]
  split
  next => rfl
  next => split <;> rfl

theorem foldlM_locate {file : Array UInt8} {table : Nat} {is : List Nat} {segments : List Segment}
    (h : is.mapM (fun i => readSegment file (table + i * programHeaderSize)) = .ok segments)
    (found : Located) :
    is.foldlM (locate file table) found = .ok (segments.foldl Located.segment found) := by
  induction is generalizing segments found with
  | nil =>
    obtain rfl := Except.ok.inj h
    rfl
  | cons i rest ih =>
    rw [List.mapM_cons] at h
    obtain ⟨s, hs, h⟩ := Except.bind_eq_ok.mp h
    obtain ⟨more, hmore, h⟩ := Except.bind_eq_ok.mp h
    obtain rfl := Except.ok.inj h
    rw [List.foldlM_cons, locate_of_readSegment hs]
    exact ih hmore (found.segment s)

/-- The program headers say what the segments are for. -/
theorem foldl_segment (g : Geometry) (capacity : Nat) :
    (g.segments capacity).foldl Located.segment {} =
      ⟨some (headersSize, g.notesSize), some capacity⟩ := by
  simp [Geometry.segments, Located.segment, kindLoad, kindNote, flagRead, flagWrite, flagExecute]

private theorem identification_fileHeader (entry : Nat) (back : Bytes) :
    slice (fileHeader entry ++ back).toArray 0 4 = .ok [0x7F, 0x45, 0x4C, 0x46] ∧
      byteAt (fileHeader entry ++ back).toArray 4 = .ok 2 ∧
      byteAt (fileHeader entry ++ back).toArray 5 = .ok 1 := by
  obtain ⟨rest, hrest⟩ : ∃ rest, fileHeader entry ++ back =
      [] ++ [0x7F, 0x45, 0x4C, 0x46] ++ (2 :: 1 :: rest) := by
    rw [fileHeader_eq]
    exact ⟨_, rfl⟩
  rw [hrest]
  exact ⟨slice_eq (slice?_append [] _ _), rfl, rfl⟩

private theorem readNat_fileHeader_format {entry : Nat} (back : Bytes)
    (hfile : (fileHeader entry ++ back).length < wordLimit) :
    readNat (fileHeader entry ++ back).toArray 18 2 = .ok machineX86 ∧
      readNat (fileHeader entry ++ back).toArray 54 2 = .ok programHeaderSize := by
  rw [fileHeader_eq] at hfile ⊢
  have hread := readNat_spell _ back hfile
  exact ⟨hread 1 rfl (by decide), hread 8 rfl (by decide)⟩

/-! Longer files. -/

/-- One reading answers whatever another does. -/
def Extends {α : Type} (x y : Reading α) : Prop :=
  ∀ a, x = .ok a → y = .ok a

namespace Extends

variable {α β : Type}

theorem refl (x : Reading α) : Extends x x :=
  fun _ => id

theorem bind {x y : Reading α} {f g : α → Reading β} (h : Extends x y)
    (hnext : ∀ a, Extends (f a) (g a)) : Extends (x >>= f) (y >>= g) := by
  intro b hb
  obtain ⟨a, hx, ha⟩ := Except.bind_eq_ok.mp hb
  exact Except.bind_eq_ok.mpr ⟨a, h a hx, hnext a b ha⟩

theorem ite {x x' y y' : Reading α} {c : Prop} [Decidable c] (h : Extends x y)
    (h' : Extends x' y') : Extends (if c then x else x') (if c then y else y') := by
  split
  next => exact h
  next => exact h'

theorem foldlM {f g : β → α → Reading β} (h : ∀ b a, Extends (f b a) (g b a)) (as : List α) (b : β) :
    Extends (as.foldlM f b) (as.foldlM g b) := by
  induction as generalizing b with
  | nil => exact refl _
  | cons a rest ih =>
    rw [List.foldlM_cons, List.foldlM_cons]
    exact bind (h b a) ih

end Extends

private theorem slice?_extends {bytes part : Bytes} {start stop : Nat} (more : Bytes)
    (h : slice? bytes.toArray start stop = some part) :
    slice? (bytes ++ more).toArray start stop = some part := by
  unfold slice? at h
  split at h
  next inside =>
    obtain ⟨hle, hstop⟩ := inside
    rw [List.size_toArray] at hstop
    rw [slice?, if_pos ⟨hle, by simp; omega⟩, ← h]
    simp [List.drop_append, List.take_append]
    omega
  next => cases h

private theorem orMalformed_extends {α : Type} {d : Defect} {x y : Option α}
    (h : ∀ a, x = some a → y = some a) : Extends (orMalformed d x) (orMalformed d y) := by
  intro a ha
  cases x with
  | none => cases ha
  | some b =>
    rw [h b rfl]
    exact ha

section

variable (bytes more : Bytes)

theorem readNat_extends {start count : Nat} :
    Extends (readNat bytes.toArray start count) (readNat (bytes ++ more).toArray start count) :=
  .bind (.refl _) fun _ => .bind (orMalformed_extends fun _ => slice?_extends more) fun _ => .refl _

theorem locate_extends (table : Nat) (found : Located) (i : Nat) :
    Extends (locate bytes.toArray table found i) (locate (bytes ++ more).toArray table found i) := by
  refine .bind (.refl _) fun _ => .bind (.refl _) fun _ => .bind (readNat_extends _ _) fun _ =>
    .bind (.refl _) fun _ => .bind (readNat_extends _ _) fun _ => .ite ?_ (.ite ?_ (.refl _))
  · exact .bind (.refl _) fun _ => .bind (readNat_extends _ _) fun _ => .bind (.refl _) fun _ =>
      .bind (readNat_extends _ _) fun _ => .refl _
  · exact .bind (.refl _) fun _ => .bind (readNat_extends _ _) fun _ => .refl _

private theorem readNote_extends (start : Nat) :
    Extends (readNote bytes.toArray start) (readNote (bytes ++ more).toArray start) := by
  refine .bind (readNat_extends _ _) fun _ => .bind (.refl _) fun _ =>
    .bind (readNat_extends _ _) fun _ => .bind (.refl _) fun _ => .bind (readNat_extends _ _) fun _ =>
    .bind (.refl _) fun _ => .bind (.refl _) fun _ => .bind (.refl _) fun _ => .bind (.refl _) fun _ =>
    .bind (orMalformed_extends fun _ => slice?_extends more) fun _ => .bind (.refl _) fun _ =>
    .bind (orMalformed_extends fun _ => slice?_extends more) fun _ => .refl _

/-- Reading that has come to its end needs neither a longer file nor more notes. -/
theorem readNotes_extends (stop : Nat) {bound bound' : Nat} (h : bound ≤ bound') (start : Nat)
    (d : Described) :
    Extends (readNotes bytes.toArray stop bound start d)
      (readNotes (bytes ++ more).toArray stop bound' start d) := by
  induction bound generalizing bound' start d with
  | zero => exact fun _ hnone => nomatch hnone
  | succ bound ih =>
    obtain ⟨bound', rfl⟩ := Nat.exists_eq_add_of_le' (Nat.le_trans (Nat.le_add_left 1 bound) h)
    refine .bind (.refl _) fun _ => .ite (.bind (readNote_extends bytes more start) ?_) (.refl _)
    rintro ⟨note, next⟩
    exact .bind (.refl _) fun d => ih (Nat.le_of_succ_le_succ h) next d

end

/-! Whole files. -/

theorem foldlM_note (name : String) {digest : Bytes} (h : digest.length = 32) :
    (moduleNotes (textBytes name) digest).foldlM Described.note {} =
      .ok ⟨some name, some digest⟩ := by
  simp [moduleNotes, Described.note, fromUTF8?_textBytes, Note.kindName, Note.kindDigest, h,
    Bind.bind, Except.bind, pure, Except.pure]

/-- The code is what is left when everything up to its offset is dropped. -/
theorem codeAfter_eq {notesEnd : Nat} (bytes : Bytes)
    (h : alignUp notesEnd codeAlignment < wordLimit) :
    codeAfter bytes.toArray notesEnd = .ok (bytes.drop (alignUp notesEnd codeAlignment)) := by
  have hdrop : bytes.drop (min (alignUp notesEnd codeAlignment) bytes.length) =
      bytes.drop (alignUp notesEnd codeAlignment) := by
    rcases Nat.le_total (alignUp notesEnd codeAlignment) bytes.length with hle | hle
    · rw [Nat.min_eq_left hle]
    · rw [Nat.min_eq_right hle, List.drop_length, List.drop_eq_nil_of_le hle]
  have hstart : alignWord notesEnd codeAlignment = .ok (alignUp notesEnd codeAlignment) := if_pos h
  rw [codeAfter, hstart, ← hdrop]
  exact slice_eq (slice?_drop (Nat.min_le_right _ _))

theorem alignUp_le (value align : Nat) : alignUp value align ≤ value + (align - 1) :=
  Nat.div_mul_le_self _ _

private theorem notesSize_lt {nameSize : Nat} (h : nameSize < 2 ^ 32) (codeSize : Nat) :
    (geometry nameSize codeSize).notesSize < 2 ^ 33 := by
  have hname := alignUp_le nameSize 4
  have hsize : (geometry nameSize codeSize).notesSize =
      12 + alignUp 6 4 + alignUp nameSize 4 + (12 + alignUp 6 4 + alignUp 32 4) := rfl
  have howner : alignUp 6 4 = 8 := rfl
  have hdigest : alignUp 32 4 = 32 := rfl
  omega

theorem codeOffset_lt {nameSize : Nat} (h : nameSize < 2 ^ 32) (codeSize : Nat) :
    (geometry nameSize codeSize).codeOffset < 2 ^ 34 := by
  have hnotes := notesSize_lt h codeSize
  have hoffset := alignUp_le (headersSize + (geometry nameSize codeSize).notesSize) codeAlignment
  have hdef : (geometry nameSize codeSize).codeOffset =
      alignUp (headersSize + (geometry nameSize codeSize).notesSize) codeAlignment := rfl
  have hheaders : headersSize = 232 := rfl
  have halign : codeAlignment = 16 := rfl
  omega

theorem codeAddress_lt {nameSize : Nat} (h : nameSize < 2 ^ 32) (codeSize : Nat) :
    baseAddress + (geometry nameSize codeSize).codeOffset < wordLimit := by
  have hoffset := codeOffset_lt h codeSize
  have hbase : baseAddress = 0x400000 := rfl
  have hword : wordLimit = 2 ^ 64 := rfl
  omega

theorem fileSize_lt {nameSize codeSize : Nat} (h : nameSize < 2 ^ 32) (hcode : codeSize < 2 ^ 63) :
    (geometry nameSize codeSize).fileSize < 2 ^ 63 + 2 ^ 34 := by
  have hoffset := codeOffset_lt h codeSize
  have hdef : (geometry nameSize codeSize).fileSize =
      (geometry nameSize codeSize).codeOffset + codeSize := rfl
  omega

theorem tapeAddress_lt {nameSize codeSize : Nat} (h : nameSize < 2 ^ 32)
    (hcode : codeSize < 2 ^ 63) : (geometry nameSize codeSize).tapeAddress < wordLimit := by
  have hfile := fileSize_lt h hcode
  have haddress := alignUp_le (baseAddress + (geometry nameSize codeSize).fileSize) pageSize
  have hdef : (geometry nameSize codeSize).tapeAddress =
      alignUp (baseAddress + (geometry nameSize codeSize).fileSize) pageSize := rfl
  have hbase : baseAddress = 0x400000 := rfl
  have hpage : pageSize = 0x1000 := rfl
  have hlimit : wordLimit = 2 ^ 64 := rfl
  omega

/-- The file header and the program headers. -/
def Geometry.headers (g : Geometry) (entry capacity : Nat) : Bytes :=
  fileHeader entry ++ (g.segments capacity).flatMap Segment.encode

/-- What is known when the notes have been read: only the digest of the code is left to check. -/
def Described.conclude (hash : Hash) (d : Described) (entry capacity : Nat) (code : Bytes) :
    Reading ModuleInfo := do
  let name ← orMalformed .noName d.name
  let digest ← orMalformed .noDigest d.digest
  if hash.digest code ≠ digest then malformed .digestMismatch
  return ⟨name, digest, entry, capacity⟩

/-- The numbers in the headers are words, and so is the offset of the code behind the notes. -/
structure Geometry.Spells (g : Geometry) (entry capacity : Nat) : Prop where
  code_lt : alignUp (headersSize + g.notesSize) codeAlignment < wordLimit
  file_lt : g.fileSize < wordLimit
  tape_lt : g.tapeAddress < wordLimit
  capacity_lt : capacity < wordLimit
  entry_lt : entry < wordLimit

namespace Geometry.Spells

variable {g : Geometry} {entry capacity : Nat}

private theorem notes_lt (h : g.Spells entry capacity) : headersSize + g.notesSize < wordLimit :=
  Nat.lt_of_le_of_lt (le_alignUp (by decide) _) h.code_lt

theorem readSegments (h : g.Spells entry capacity) (back : Bytes)
    (hfile : (g.headers entry capacity ++ back).length < wordLimit) :
    readSegments (g.headers entry capacity ++ back).toArray = .ok (g.segments capacity) := by
  have hnotes : g.notesSize < 256 ^ 8 :=
    Nat.lt_of_le_of_lt (Nat.le_add_left _ _) h.notes_lt
  rw [Geometry.headers, List.append_assoc] at hfile ⊢
  exact readSegments_eq h.entry_lt (fits_codeSegment h.file_lt)
    (fits_tapeSegment h.tape_lt h.capacity_lt) (fits_noteSegment hnotes) _ hfile

/-- The file header, whatever is behind it. -/
theorem readHeader (h : g.Spells entry capacity) (back : Bytes) :
    slice (g.headers entry capacity ++ back).toArray 0 4 = .ok [0x7F, 0x45, 0x4C, 0x46] ∧
      byteAt (g.headers entry capacity ++ back).toArray 4 = .ok 2 ∧
      byteAt (g.headers entry capacity ++ back).toArray 5 = .ok 1 ∧
      readNat (g.headers entry capacity ++ back).toArray 18 2 = .ok machineX86 ∧
      readNat (g.headers entry capacity ++ back).toArray 24 8 = .ok entry ∧
      readNat (g.headers entry capacity ++ back).toArray 32 8 = .ok fileHeaderSize ∧
      readNat (g.headers entry capacity ++ back).toArray 54 2 = .ok programHeaderSize ∧
      readNat (g.headers entry capacity ++ back).toArray 56 2 = .ok 3 := by
  have hlimit : (g.headers entry capacity).length < wordLimit := by
    rw [Geometry.headers, length_headers]
    decide
  obtain ⟨hmachine, hheaderSize⟩ := readNat_fileHeader_format _ hlimit
  obtain ⟨hentry, htable, hcount⟩ := readNat_fileHeader h.entry_lt _ hlimit
  obtain ⟨hmagic, hclass, horder⟩ := identification_fileHeader entry
    ((g.segments capacity).flatMap Segment.encode ++ back)
  rw [← List.append_assoc] at hmagic hclass horder
  exact ⟨hmagic, hclass, horder, readNat_extends _ _ _ hmachine, readNat_extends _ _ _ hentry,
    readNat_extends _ _ _ htable, readNat_extends _ _ _ hheaderSize, readNat_extends _ _ _ hcount⟩

/-- The program headers lead to the notes and the tape. -/
theorem foldlM_locate (h : g.Spells entry capacity) (back : Bytes) :
    (List.range 3).foldlM (locate (g.headers entry capacity ++ back).toArray fileHeaderSize) {} =
      .ok ⟨some (headersSize, g.notesSize), some capacity⟩ := by
  have hread := h.readHeader []
  have hsegments := h.readSegments []
  rw [List.append_nil] at hread hsegments
  obtain ⟨-, -, -, -, -, htable, -, hcount⟩ := hread
  have hlimit : (g.headers entry capacity).length < wordLimit := by
    rw [Geometry.headers, length_headers]
    decide
  simp only [Module.readSegments, htable, hcount, Bind.bind, Except.bind] at hsegments
  have hfound := Module.foldlM_locate (hsegments hlimit) {}
  rw [foldl_segment] at hfound
  exact Extends.foldlM (fun found i => locate_extends _ back fileHeaderSize found i) _ _ _ hfound

/-- Behind the headers, only the notes and the code decide. -/
theorem inspect (h : g.Spells entry capacity) (hash : Hash) (back : Bytes)
    (hnotes : g.notesSize ≤ back.length) :
    inspect hash (g.headers entry capacity ++ back) =
      readNotes (g.headers entry capacity ++ back).toArray (headersSize + g.notesSize)
          ((g.headers entry capacity ++ back).length + 1) headersSize {} >>= fun d =>
        d.conclude hash entry capacity ((g.headers entry capacity ++ back).drop
          (alignUp (headersSize + g.notesSize) codeAlignment)) := by
  obtain ⟨hmagic, hclass, horder, hmachine, hentry, htable, hheaderSize, hcount⟩ := h.readHeader back
  have hfound := h.foldlM_locate back
  have hcode := codeAfter_eq (g.headers entry capacity ++ back) h.code_lt
  have hlength : (g.headers entry capacity ++ back).length = headersSize + back.length := by
    rw [List.length_append, Geometry.headers, length_headers]
  have hsize : ¬ (g.headers entry capacity ++ back).length < fileHeaderSize := by
    have hheaders : headersSize = 232 := rfl
    have hheader : fileHeaderSize = 64 := rfl
    omega
  have hword : ¬ wordLimit ≤ headersSize + g.notesSize := Nat.not_le_of_gt h.notes_lt
  have hinside : ¬ (g.headers entry capacity ++ back).length < headersSize + g.notesSize := by omega
  simp only [Module.inspect, readModule, List.size_toArray, hsize, hmagic, hclass, horder, hmachine,
    hentry, htable, hheaderSize, hcount, hfound, hword, hinside, hcode, orMalformed, ne_eq,
    not_true_eq_false, or_self, if_false, Refusal.ofBreach, Bind.bind, Except.bind, pure,
    Except.pure, Described.conclude]

end Geometry.Spells

/-- What can be laid out as a module. -/
structure Linkable (code : MachineCode) (name : String) (capacity : Nat) : Prop where
  /-- Addresses are left open inside the code. -/
  relocated : ∀ r ∈ code.relocations, r + 8 ≤ code.bytes.length
  /-- Byte strings are shorter than half the address space. -/
  code_lt : code.bytes.length < 2 ^ 63
  name_lt : (textBytes name).length < 2 ^ 32
  capacity_lt : capacity < wordLimit
  entry_lt : baseAddress + ((geometry (textBytes name).length code.bytes.length).codeOffset +
    code.entry) < wordLimit

theorem fits_moduleNotes {name digest : Bytes} (hname : name.length < 2 ^ 32)
    (hdigest : digest.length = 32) : ∀ n ∈ moduleNotes name digest, n.Fits := by
  intro n hn
  rw [moduleNotes, List.mem_cons, List.mem_singleton] at hn
  rcases hn with rfl | rfl
  · exact ⟨(by decide : Note.moduleOwner.length < 256 ^ 4), hname,
      (by decide : Note.kindName < 256 ^ 4)⟩
  · have hpayload : digest.length < 256 ^ 4 := by
      rw [hdigest]
      decide
    exact ⟨(by decide : Note.moduleOwner.length < 256 ^ 4), hpayload,
      (by decide : Note.kindDigest < 256 ^ 4)⟩

/-- The headers and the notes of a module, for code of some size with a digest. -/
structure Headed (g : Geometry) (entry capacity : Nat) (name : String) (digest front : Bytes) :
    Prop where
  geometry : ∃ codeSize, g = geometry (textBytes name).length codeSize
  name_lt : (textBytes name).length < 2 ^ 32
  tape_lt : g.tapeAddress < wordLimit
  capacity_lt : capacity < wordLimit
  entry_lt : entry < wordLimit
  digest_length : digest.length = 32
  parts : front = g.front entry capacity (textBytes name) digest

namespace Headed

variable {g : Geometry} {entry capacity : Nat} {name : String} {digest front : Bytes}

theorem length_eq (h : Headed g entry capacity name digest front) :
    front.length = headersSize + g.notesSize := by
  obtain ⟨codeSize, hg⟩ := h.geometry
  rw [h.parts, hg]
  exact Geometry.length_front entry capacity codeSize (textBytes name) digest h.digest_length

private theorem codeOffset_eq (h : Headed g entry capacity name digest front) :
    g.codeOffset = alignUp front.length codeAlignment := by
  obtain ⟨codeSize, hg⟩ := h.geometry
  rw [h.length_eq, hg]
  rfl

theorem codeOffset_lt (h : Headed g entry capacity name digest front) :
    g.codeOffset < 2 ^ 34 := by
  obtain ⟨codeSize, hg⟩ := h.geometry
  rw [hg]
  exact Module.codeOffset_lt h.name_lt codeSize

theorem length_le (h : Headed g entry capacity name digest front) :
    front.length ≤ g.codeOffset := by
  rw [h.codeOffset_eq]
  exact le_alignUp (by decide) _

theorem length_lt (h : Headed g entry capacity name digest front) : front.length < 2 ^ 34 :=
  Nat.lt_of_le_of_lt h.length_le h.codeOffset_lt

private theorem fileSize_le (h : Headed g entry capacity name digest front) :
    baseAddress + g.fileSize ≤ g.tapeAddress := by
  obtain ⟨codeSize, hg⟩ := h.geometry
  rw [hg]
  exact le_alignUp (by decide) _

theorem spells (h : Headed g entry capacity name digest front) : g.Spells entry capacity where
  code_lt := h.length_eq ▸ h.codeOffset_eq ▸ Nat.lt_trans h.codeOffset_lt (by decide)
  file_lt := Nat.lt_of_le_of_lt (Nat.le_trans (Nat.le_add_left _ _) h.fileSize_le) h.tape_lt
  tape_lt := h.tape_lt
  capacity_lt := h.capacity_lt
  entry_lt := h.entry_lt

/-- The notes follow the headers. -/
theorem append_eq (h : Headed g entry capacity name digest front) (back : Bytes) :
    front ++ back = g.headers entry capacity ++
      ((moduleNotes (textBytes name) digest).flatMap Note.encode ++ back) := by
  rw [h.parts, Geometry.front, Geometry.headers, List.append_assoc]

theorem readSegments (h : Headed g entry capacity name digest front) (back : Bytes)
    (hfile : (front ++ back).length < wordLimit) :
    readSegments (front ++ back).toArray = .ok (g.segments capacity) := by
  rw [h.append_eq] at hfile ⊢
  exact h.spells.readSegments _ hfile

/-- The file header, whatever is behind it. -/
theorem readHeader (h : Headed g entry capacity name digest front) (back : Bytes) :
    slice (front ++ back).toArray 0 4 = .ok [0x7F, 0x45, 0x4C, 0x46] ∧
      byteAt (front ++ back).toArray 4 = .ok 2 ∧ byteAt (front ++ back).toArray 5 = .ok 1 ∧
      readNat (front ++ back).toArray 18 2 = .ok machineX86 ∧
      readNat (front ++ back).toArray 24 8 = .ok entry ∧
      readNat (front ++ back).toArray 32 8 = .ok fileHeaderSize ∧
      readNat (front ++ back).toArray 54 2 = .ok programHeaderSize ∧
      readNat (front ++ back).toArray 56 2 = .ok 3 := by
  rw [h.append_eq]
  exact h.spells.readHeader _

/-- The program headers lead to the notes and the tape. -/
theorem foldlM_locate (h : Headed g entry capacity name digest front) (back : Bytes) :
    (List.range 3).foldlM (locate (front ++ back).toArray fileHeaderSize) {} =
      .ok ⟨some (headersSize, g.notesSize), some capacity⟩ := by
  rw [h.append_eq]
  exact h.spells.foldlM_locate _

theorem length_notes (h : Headed g entry capacity name digest front) :
    ((moduleNotes (textBytes name) digest).flatMap Note.encode).length = g.notesSize := by
  obtain ⟨codeSize, hg⟩ := h.geometry
  rw [hg]
  exact Module.length_notes _ _ _ h.digest_length

/-- The notes are found where the program headers say they are. -/
theorem readNotes (h : Headed g entry capacity name digest front) (back : Bytes) :
    readNotes (front ++ back).toArray (headersSize + g.notesSize) ((front ++ back).length + 1)
        headersSize {} = .ok ⟨some name, some digest⟩ := by
  have written := notesWrittenAs_encode (fits_moduleNotes h.name_lt h.digest_length)
  have hlength := h.length_eq
  have hbound : (moduleNotes (textBytes name) digest).length < front.length + 1 := by
    have hle := written.length_le
    rw [h.length_notes] at hle
    omega
  have hlimit : front.length + 12 < wordLimit :=
    Nat.lt_trans (Nat.add_lt_add_right h.length_lt 12) (by decide)
  have hheaders : (g.headers entry capacity).length = headersSize := g.length_headers entry capacity
  have hsplit := h.append_eq []
  rw [List.append_nil, ← List.append_assoc] at hsplit
  have hread := walkNotes_eq Described.note written (g.headers entry capacity) [] hbound
    (hsplit ▸ hlimit) {}
  rw [← hsplit, hheaders, h.length_notes, foldlM_note name h.digest_length] at hread
  refine readNotes_extends front back _ ?_ _ _ _ hread
  rw [List.length_append]
  omega

/-- Whatever follows the headers and the notes, only its digest decides. -/
theorem inspect (h : Headed g entry capacity name digest front) (hash : Hash) (rest : Bytes) :
    inspect hash (front ++ rest) =
      if hash.digest (rest.drop (g.codeOffset - front.length)) = digest then
        .ok ⟨name, digest, entry, capacity⟩
      else malformed .digestMismatch := by
  have hnotes : g.notesSize ≤
      ((moduleNotes (textBytes name) digest).flatMap Note.encode ++ rest).length := by
    rw [List.length_append, h.length_notes]
    omega
  have hcode : (front ++ rest).drop (alignUp (headersSize + g.notesSize) codeAlignment) =
      rest.drop (g.codeOffset - front.length) := by
    rw [← h.length_eq, ← h.codeOffset_eq, List.drop_append, List.drop_eq_nil_of_le h.length_le,
      List.nil_append]
  rw [h.append_eq, h.spells.inspect hash _ hnotes, ← h.append_eq, h.readNotes, hcode]
  simp only [Described.conclude, orMalformed, Bind.bind, Except.bind]
  by_cases hdigest : hash.digest (rest.drop (g.codeOffset - front.length)) = digest
  · rw [if_neg (not_not_intro hdigest), if_pos hdigest]
    rfl
  · rw [if_pos hdigest, if_neg hdigest]
    rfl

end Headed

/-- A file in its parts: headers and notes, padding, and the code at its offset. -/
structure Written (hash : Hash) (g : Geometry) (entry capacity : Nat) (name : String)
    (padding code image : Bytes) : Prop where
  geometry : g = geometry (textBytes name).length code.length
  name_lt : (textBytes name).length < 2 ^ 32
  tape_lt : g.tapeAddress < wordLimit
  capacity_lt : capacity < wordLimit
  entry_lt : entry < wordLimit
  parts : image = g.front entry capacity (textBytes name) (hash.digest code) ++ padding ++ code
  zeros : ∀ b ∈ padding, b = 0
  offset : (g.front entry capacity (textBytes name) (hash.digest code) ++ padding).length =
    g.codeOffset

namespace Written

variable {hash : Hash} {g : Geometry} {entry capacity : Nat} {name : String}
  {padding code image : Bytes}

theorem headed (w : Written hash g entry capacity name padding code image) :
    Headed g entry capacity name (hash.digest code)
      (g.front entry capacity (textBytes name) (hash.digest code)) :=
  ⟨⟨_, w.geometry⟩, w.name_lt, w.tape_lt, w.capacity_lt, w.entry_lt, hash.length_digest code, rfl⟩

theorem length_eq (w : Written hash g entry capacity name padding code image) :
    image.length = g.fileSize := by
  rw [w.parts, List.length_append, w.offset, w.geometry]
  rfl

theorem length_lt (w : Written hash g entry capacity name padding code image) :
    image.length < wordLimit := by
  have hle := w.headed.fileSize_le
  have hlt := w.tape_lt
  rw [w.length_eq]
  omega

theorem readSegments (w : Written hash g entry capacity name padding code image) :
    readSegments image.toArray = .ok (g.segments capacity) := by
  have hlimit := w.length_lt
  rw [w.parts, List.append_assoc] at hlimit ⊢
  exact w.headed.readSegments _ hlimit

theorem length_padding (w : Written hash g entry capacity name padding code image) :
    g.codeOffset - (g.front entry capacity (textBytes name) (hash.digest code)).length =
      padding.length := by
  rw [← w.offset, List.length_append, Nat.add_sub_cancel_left]

/-- Every part is read back, and the digest is that of the code. -/
theorem inspect (w : Written hash g entry capacity name padding code image) :
    inspect hash image = .ok ⟨name, hash.digest code, entry, capacity⟩ := by
  rw [w.parts, List.append_assoc, w.headed.inspect, w.length_padding, List.drop_left, if_pos rfl]

end Written

/-- Code is written part by part, patched for the tape's address. -/
theorem exists_written (hash : Hash) {code : MachineCode} {name : String} {capacity : Nat} {g : Geometry}
    (hg : g = geometry (textBytes name).length code.bytes.length)
    (relocated : ∀ r ∈ code.relocations, r + 8 ≤ code.bytes.length)
    (name_lt : (textBytes name).length < 2 ^ 32) (tape_lt : g.tapeAddress < wordLimit)
    (capacity_lt : capacity < wordLimit)
    (entry_lt : baseAddress + (g.codeOffset + code.entry) < wordLimit) :
    ∃ header bytes padding image, header.length = g.codeOffset ∧
      bytes.length = code.bytes.length ∧ image = header ++ bytes ∧
      link hash code name capacity = .ok image ∧
      code.patch (UInt64.ofNat g.tapeAddress) = .ok { code with bytes } ∧
      Written hash g (baseAddress + (g.codeOffset + code.entry)) capacity name padding bytes image := by
  obtain ⟨bytes, hpatch⟩ := patch_of_inside relocated (UInt64.ofNat g.tapeAddress)
  have hbytes := (filled_of_patch hpatch).length_eq
  have hlink := link_eq_pad hash capacity hg hpatch entry_lt
  generalize baseAddress + (g.codeOffset + code.entry) = entry at hlink entry_lt
  obtain ⟨padding, hpad, hzeros⟩ : ∃ padding,
      pad codeAlignment (g.front entry capacity (textBytes name) (hash.digest bytes)) =
          g.front entry capacity (textBytes name) (hash.digest bytes) ++ padding ∧
        ∀ b ∈ padding, b = 0 :=
    ⟨_, rfl, fun _ => List.eq_of_mem_replicate⟩
  have hoffset : (g.front entry capacity (textBytes name) (hash.digest bytes) ++ padding).length =
      g.codeOffset := by
    rw [← hpad, length_pad (by decide), hg, Geometry.length_front _ _ _ _ _ (hash.length_digest bytes)]
    rfl
  rw [hpad] at hlink
  refine ⟨_, bytes, padding, _, hoffset, hbytes, rfl, hlink, hpatch, ?_⟩
  exact ⟨by rw [hg, hbytes], name_lt, tape_lt, capacity_lt, entry_lt, rfl, hzeros, hoffset⟩

theorem Linkable.exists_written {code : MachineCode} {name : String} {capacity : Nat} {g : Geometry}
    (h : Linkable code name capacity) (hash : Hash)
    (hg : g = geometry (textBytes name).length code.bytes.length) :
    ∃ header bytes padding image, header.length = g.codeOffset ∧
      bytes.length = code.bytes.length ∧ image = header ++ bytes ∧
      link hash code name capacity = .ok image ∧
      code.patch (UInt64.ofNat g.tapeAddress) = .ok { code with bytes } ∧
      Written hash g (baseAddress + (g.codeOffset + code.entry)) capacity name padding bytes image :=
  Module.exists_written hash hg h.relocated h.name_lt (hg ▸ tapeAddress_lt h.name_lt h.code_lt)
    h.capacity_lt (hg ▸ h.entry_lt)

private theorem find?_writable (g : Geometry) (capacity : Nat) :
    (g.segments capacity).find? (·.has flagWrite) = some (g.tapeSegment capacity) := by
  simp [Geometry.segments_eq, Segment.has, Geometry.codeSegment, Geometry.tapeSegment, kindLoad,
    flagRead, flagExecute, flagWrite]

/-- What a name may be is far below what a note can hold. -/
theorem length_textBytes_lt {name : String} (h : nameDefect? name = none) :
    (textBytes name).length < 2 ^ 32 := by
  have hsize : (textBytes name).length = name.utf8ByteSize := Array.length_toList
  have hmax : longestName = 255 := rfl
  unfold nameDefect? at h
  split at h
  next => cases h
  next =>
    split at h
    next => cases h
    next => omega

/-- Whatever is built was linked from code that can be laid out. -/
theorem linkable_of_build {e : Emitter} {hash : Hash} {p : Program} {name : String} {image : Bytes}
    (h : e.build hash p name = .ok image) (himage : image.length < 2 ^ 63)
    (hcapacity : e.capacity < wordLimit) :
    ∃ code, Linkable code name e.capacity ∧ link hash code name e.capacity = .ok image := by
  unfold Emitter.build at h
  split at h
  next => cases h
  next hdefect =>
    obtain ⟨code, hcode, hrest⟩ := Except.bind_eq_ok.mp h
    have hgenerate : generate p (SystemCalls.environment e.capacity) e.policy = .ok code := by
      cases hresult : generate p (SystemCalls.environment e.capacity) e.policy with
      | error r => simp [hresult, Except.mapError] at hcode
      | ok code' => simpa [hresult, Except.mapError] using hcode
    have hlink := Refusal.ofBreach_eq_ok.mp hrest
    obtain ⟨hentry, hrelocated⟩ := relocations_of_generate hgenerate
    have hname := length_textBytes_lt hdefect
    generalize hg : geometry (textBytes name).length code.bytes.length = g
    have hlimit : baseAddress + (g.codeOffset + code.entry) < wordLimit := by
      rw [← hg, hentry, Nat.add_zero]
      exact codeAddress_lt hname code.bytes.length
    obtain ⟨bytes, hpatch⟩ := patch_of_inside hrelocated (UInt64.ofNat g.tapeAddress)
    have hbytes := (filled_of_patch hpatch).length_eq
    have hsize : code.bytes.length ≤ image.length := by
      obtain rfl := Except.ok.inj
        (hlink.symm.trans (link_eq_pad hash e.capacity hg.symm hpatch hlimit))
      rw [List.length_append]
      omega
    exact ⟨code, ⟨hrelocated, by omega, hname, hcapacity, hg ▸ hlimit⟩, hlink⟩

/-- Inspecting undoes linking, whatever the digest is: it gives back the name, the size of the tape, the
digest of the code as it is in the file, and the address of its entry. The code in the file has the
address of the tape's segment wherever it was left open, and is as it was elsewhere. Everything an
emitter builds can be inspected. -/
theorem inspect_link (hash : Hash) :
    (∀ code name capacity, Linkable code name capacity →
      ∃ header bytes segments tape, link hash code name capacity = .ok (header ++ bytes) ∧
        readSegments (header ++ bytes).toArray = .ok segments ∧
        segments.find? (·.has flagWrite) = some tape ∧ tape.memorySize = capacity ∧
        Filled code.relocations (UInt64.ofNat tape.address) code.bytes bytes ∧
        inspect hash (header ++ bytes) = .ok ⟨name, hash.digest bytes,
          0x400000 + header.length + code.entry, capacity⟩) ∧
    ∀ (e : Emitter) p name image, e.build hash p name = .ok image → image.length < 2 ^ 63 →
      e.capacity < wordLimit →
        ∃ digest entry, inspect hash image = .ok ⟨name, digest, entry, e.capacity⟩ := by
  constructor
  · intro code name capacity h
    obtain ⟨header, bytes, padding, image, hheader, -, rfl, hlink, hpatch, w⟩ :=
      h.exists_written hash rfl
    refine ⟨header, bytes, _, _, hlink, w.readSegments, find?_writable _ capacity, rfl,
      filled_of_patch hpatch, ?_⟩
    have hentry : 0x400000 + header.length + code.entry = baseAddress +
        ((geometry (textBytes name).length code.bytes.length).codeOffset + code.entry) := by
      rw [hheader, Nat.add_assoc, baseAddress]
    rw [w.inspect, hentry]
  · intro e p name image hbuild himage hcapacity
    obtain ⟨code, h, hlink⟩ := linkable_of_build hbuild himage hcapacity
    obtain ⟨header, bytes, padding, image', -, -, -, hlink', -, w⟩ := h.exists_written hash rfl
    obtain rfl := Except.ok.inj (hlink.symm.trans hlink')
    exact ⟨_, _, w.inspect⟩

/-- Two open addresses that overlap, an entry in the middle of the code, and a name whose length is not
a multiple of four; and a module that copies a byte. -/
theorem inspect_link_unaligned :
    Linkable ⟨List.replicate 13 0x90, 7, [2, 5], []⟩ "né" 30000 ∧
      (∃ header bytes, bytes = [0x90, 0x90, 0, 0x10, 0x40, 0, 0x10, 0x40, 0, 0, 0, 0, 0] ∧
        link .blake3 ⟨List.replicate 13 0x90, 7, [2, 5], []⟩ "né" 30000 = .ok (header ++ bytes) ∧
        inspect .blake3 (header ++ bytes) =
          .ok ⟨"né", Digest.blake3 bytes, 0x400000 + header.length + 7, 30000⟩) ∧
      ∃ image digest entry, Emitter.build ⟨1, .zero⟩ .blake3 ⟨#[.input, .output]⟩ "cat" = .ok image ∧
        inspect .blake3 image = .ok ⟨"cat", digest, entry, 1⟩ := by
  have h : Linkable ⟨List.replicate 13 0x90, 7, [2, 5], []⟩ "né" 30000 :=
    ⟨by decide, by decide, by decide +kernel, by decide, by decide +kernel⟩
  obtain ⟨header, bytes, segments, tape, hlink, hsegments, htape, -, hfilled, hinspect⟩ :=
    (inspect_link .blake3).1 _ _ _ h
  have haddress : (link .blake3 ⟨List.replicate 13 0x90, 7, [2, 5], []⟩ "né" 30000).toOption.bind
      (fun image => (readSegments image.toArray).toOption.bind fun segments =>
        (segments.find? (·.has flagWrite)).map (·.address)) = some 0x401000 := by
    decide +kernel
  simp only [hlink, hsegments, htape, Except.toOption, Option.bind_some, Option.map_some,
    Option.some.injEq] at haddress
  rw [haddress] at hfilled
  -- Where the two addresses overlap, the second one stands.
  have hpatch : MachineCode.patch ⟨List.replicate 13 0x90, 7, [2, 5], []⟩ 0x401000 =
      .ok ⟨[0x90, 0x90, 0, 0x10, 0x40, 0, 0x10, 0x40, 0, 0, 0, 0, 0], 7, [2, 5], []⟩ := by
    decide +kernel
  have hbytes := hfilled.unique (filled_of_patch hpatch)
  obtain ⟨image, hbuild, hsize⟩ : ∃ image,
      Emitter.build ⟨1, .zero⟩ .blake3 ⟨#[.input, .output]⟩ "cat" = .ok image ∧
        image.length < 2 ^ 63 := by
    have hbuilt : (Emitter.build ⟨1, .zero⟩ .blake3 ⟨#[.input, .output]⟩ "cat").toOption.any
        (fun image => image.length < 2 ^ 63) = true := by
      decide +kernel
    cases hbuild : Emitter.build ⟨1, .zero⟩ .blake3 ⟨#[.input, .output]⟩ "cat" with
    | error r => simp [hbuild, Except.toOption] at hbuilt
    | ok image => exact ⟨image, rfl, by simpa [hbuild, Except.toOption] using hbuilt⟩
  obtain ⟨digest, entry, hread⟩ := (inspect_link .blake3).2 _ _ _ image hbuild hsize (by decide)
  exact ⟨h, ⟨header, bytes, hbytes, hlink, hinspect⟩, image, digest, entry, hbuild, hread⟩

end Module

end TapeLang
