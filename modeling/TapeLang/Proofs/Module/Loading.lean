import TapeLang.Module.Emitter
import TapeLang.Module.Execution
import TapeLang.Proofs.Native.Relocation

/-!
# Loading modules

Linking fills the address of the tape into the code and puts headers in front of it; loading reads the
headers back. What is mapped is the code for the address the tape is mapped at, and a tape of zeros.
-/

namespace TapeLang

open X86 Assembly

namespace Module

open Native

/-! Numbers in a file. -/

theorem readNat_eq {count value : Nat} (front back : Bytes) (hvalue : value < 256 ^ count)
    (hfile : (front ++ Bytes.ofNat count value ++ back).length < wordLimit) :
    readNat (front ++ Bytes.ofNat count value ++ back).toArray front.length count = .ok value := by
  have hoffset : offset front.length count = .ok (front.length + count) := by
    simp only [List.length_append, Bytes.length_ofNat] at hfile
    exact if_pos (by omega)
  have hslice : slice? (front ++ Bytes.ofNat count value ++ back).toArray front.length
      (front.length + count) = some (Bytes.ofNat count value) := by
    rw [slice?, if_pos (by simp)]
    simp
  rw [readNat, hoffset]
  simp only [Bind.bind, Except.bind, hslice, orMalformed, pure, Except.pure]
  rw [Bytes.toNat_ofNat, Nat.mod_eq_of_lt hvalue]

/-- Numbers of some widths, one behind the other. -/
def spell (fields : List (Nat × Nat)) : Bytes :=
  fields.flatMap fun field => Bytes.ofNat field.1 field.2

/-- The number of bytes the fields in front of one take. -/
def widths (fields : List (Nat × Nat)) (k : Nat) : Nat :=
  ((fields.take k).map Prod.fst).sum

private theorem length_spell_take (fields : List (Nat × Nat)) (k : Nat) :
    (spell (fields.take k)).length = widths fields k := by
  simp [spell, widths, List.length_flatMap]

theorem readNat_spell {fields : List (Nat × Nat)} (front back : Bytes)
    (hfile : (front ++ spell fields ++ back).length < wordLimit) (k : Nat) {count value : Nat}
    (hk : fields[k]? = some (count, value)) (hvalue : value < 256 ^ count) :
    readNat (front ++ spell fields ++ back).toArray (front.length + widths fields k) count =
      .ok value := by
  obtain ⟨hlt, hget⟩ := List.getElem?_eq_some_iff.mp hk
  have hcut : front ++ spell fields ++ back = (front ++ spell (fields.take k)) ++
      Bytes.ofNat count value ++ (spell (fields.drop (k + 1)) ++ back) := by
    conv_lhs => rw [← List.take_append_drop k fields, List.drop_eq_getElem_cons hlt, hget]
    simp [spell]
  rw [hcut] at hfile ⊢
  rw [← length_spell_take, ← List.length_append]
  exact readNat_eq _ _ hvalue hfile

/-! Headers. -/

/-- The numbers of a segment fit in their fields. -/
structure Segment.Fits (s : Segment) : Prop where
  kind : s.kind < 256 ^ 4
  flags : s.flags < 256 ^ 4
  offset : s.offset < 256 ^ 8
  address : s.address < 256 ^ 8
  fileSize : s.fileSize < 256 ^ 8
  memorySize : s.memorySize < 256 ^ 8
  align : s.align < 256 ^ 8

def Segment.fields (s : Segment) : List (Nat × Nat) :=
  [(4, s.kind), (4, s.flags), (8, s.offset), (8, s.address), (8, s.address), (8, s.fileSize),
    (8, s.memorySize), (8, s.align)]

theorem Segment.encode_eq (s : Segment) : s.encode = spell s.fields := by
  simp [encode, spell, fields]

theorem readSegment_encode {s : Segment} (fits : s.Fits) (front back : Bytes)
    (hfile : (front ++ s.encode ++ back).length < wordLimit) :
    readSegment (front ++ s.encode ++ back).toArray front.length = .ok s := by
  rw [Segment.encode_eq] at hfile ⊢
  generalize hbytes : (front ++ spell s.fields ++ back).toArray = file
  have hread := readNat_spell front back hfile
  rw [hbytes] at hread
  have hkind : readNat file front.length 4 = .ok s.kind := hread 0 rfl fits.kind
  have hflags : readNat file (front.length + 4) 4 = .ok s.flags := hread 1 rfl fits.flags
  have hoffset : readNat file (front.length + 8) 8 = .ok s.offset := hread 2 rfl fits.offset
  have haddress : readNat file (front.length + 16) 8 = .ok s.address := hread 3 rfl fits.address
  have hfileSize : readNat file (front.length + 32) 8 = .ok s.fileSize := hread 5 rfl fits.fileSize
  have hmemorySize : readNat file (front.length + 40) 8 = .ok s.memorySize :=
    hread 6 rfl fits.memorySize
  have halign : readNat file (front.length + 48) 8 = .ok s.align := hread 7 rfl fits.align
  simp only [readSegment, hkind, hflags, hoffset, haddress, hfileSize, hmemorySize, halign,
    Bind.bind, Except.bind, pure, Except.pure]

private theorem length_encode_segment (s : Segment) : s.encode.length = programHeaderSize := by
  simp [Segment.encode, programHeaderSize]

/-- The numbers of a file header behind its identification. -/
def headerFields (entry : Nat) : List (Nat × Nat) :=
  [(2, 2), (2, machineX86), (4, 1), (8, entry), (8, fileHeaderSize), (8, 0), (4, 0),
    (2, fileHeaderSize), (2, programHeaderSize), (2, 3), (2, 0), (2, 0), (2, 0)]

theorem fileHeader_eq (entry : Nat) :
    fileHeader entry = [0x7F, 0x45, 0x4C, 0x46, 2, 1, 1, 0, 0, 0, 0, 0, 0, 0, 0, 0] ++
      spell (headerFields entry) := by
  simp [fileHeader, spell, headerFields]

private theorem length_fileHeader (entry : Nat) : (fileHeader entry).length = fileHeaderSize := by
  simp [fileHeader, fileHeaderSize]

/-- The entry, and where the program headers are. -/
theorem readNat_fileHeader {entry : Nat} (hentry : entry < 256 ^ 8) (back : Bytes)
    (hfile : (fileHeader entry ++ back).length < wordLimit) :
    readNat (fileHeader entry ++ back).toArray 24 8 = .ok entry ∧
      readNat (fileHeader entry ++ back).toArray 32 8 = .ok fileHeaderSize ∧
      readNat (fileHeader entry ++ back).toArray 56 2 = .ok 3 := by
  rw [fileHeader_eq] at hfile ⊢
  have hread := readNat_spell _ back hfile
  exact ⟨hread 3 rfl hentry, hread 4 rfl (by decide), hread 9 rfl (by decide)⟩

theorem readSegments_eq {entry : Nat} {s₀ s₁ s₂ : Segment} (hentry : entry < 256 ^ 8)
    (h₀ : s₀.Fits) (h₁ : s₁.Fits) (h₂ : s₂.Fits) (back : Bytes)
    (hfile : (fileHeader entry ++ ([s₀, s₁, s₂].flatMap Segment.encode ++ back)).length <
      wordLimit) :
    readSegments (fileHeader entry ++ ([s₀, s₁, s₂].flatMap Segment.encode ++ back)).toArray =
      .ok [s₀, s₁, s₂] := by
  obtain ⟨-, htable, hcount⟩ := readNat_fileHeader hentry _ hfile
  generalize hbytes : fileHeader entry ++ ([s₀, s₁, s₂].flatMap Segment.encode ++ back) = bytes at *
  have hread : ∀ {s} front after, s.Fits → bytes = front ++ s.encode ++ after →
      readSegment bytes.toArray front.length = .ok s := by
    rintro s front after hs rfl
    exact readSegment_encode hs front after hfile
  have hlength₁ : (fileHeader entry ++ s₀.encode).length =
      fileHeaderSize + 1 * programHeaderSize := by
    rw [List.length_append, length_fileHeader, length_encode_segment, Nat.one_mul]
  have hlength₂ : (fileHeader entry ++ s₀.encode ++ s₁.encode).length =
      fileHeaderSize + 2 * programHeaderSize := by
    rw [List.length_append, hlength₁, length_encode_segment]
    rfl
  have hread₀ := hread (fileHeader entry) (s₁.encode ++ s₂.encode ++ back) h₀ (by simp [← hbytes])
  have hread₁ := hread (fileHeader entry ++ s₀.encode) (s₂.encode ++ back) h₁ (by simp [← hbytes])
  have hread₂ := hread (fileHeader entry ++ s₀.encode ++ s₁.encode) back h₂ (by simp [← hbytes])
  rw [length_fileHeader] at hread₀
  rw [hlength₁] at hread₁
  rw [hlength₂] at hread₂
  have hrange : List.range 3 = [0, 1, 2] := rfl
  simp only [readSegments, htable, hcount, Bind.bind, Except.bind, hrange, List.mapM_cons,
    List.mapM_nil, Nat.zero_mul, Nat.add_zero, hread₀, hread₁, hread₂, pure, Except.pure]

/-! Mapping. -/

/-- The parts of an image lie one behind the other, within the address space. -/
structure Geometry.Mapped (g : Geometry) (capacity : Nat) : Prop where
  notes : headersSize + g.notesSize ≤ g.fileSize
  tape : baseAddress + g.fileSize ≤ g.tapeAddress
  space : g.tapeAddress + capacity ≤ wordLimit
  cells : 1 ≤ capacity

namespace Geometry

variable {g : Geometry} {capacity : Nat}

/-- The whole file, readable and executable. -/
def codeSegment (g : Geometry) : Segment :=
  ⟨kindLoad, flagRead + flagExecute, 0, baseAddress, g.fileSize, g.fileSize, pageSize⟩

/-- The tape, writable and without bytes in the file. -/
def tapeSegment (g : Geometry) (capacity : Nat) : Segment :=
  ⟨kindLoad, flagRead + flagWrite, 0, g.tapeAddress, 0, capacity, pageSize⟩

def noteSegment (g : Geometry) : Segment :=
  ⟨kindNote, flagRead, headersSize, baseAddress + headersSize, g.notesSize, g.notesSize, 4⟩

theorem segments_eq (g : Geometry) (capacity : Nat) :
    g.segments capacity = [g.codeSegment, g.tapeSegment capacity, g.noteSegment] := rfl

theorem fits_codeSegment (h : g.fileSize < 256 ^ 8) : g.codeSegment.Fits :=
  ⟨(by decide : kindLoad < 256 ^ 4), (by decide : flagRead + flagExecute < 256 ^ 4),
    (by decide : 0 < 256 ^ 8), (by decide : baseAddress < 256 ^ 8), h, h,
    (by decide : pageSize < 256 ^ 8)⟩

theorem fits_tapeSegment (h : g.tapeAddress < 256 ^ 8) (hcapacity : capacity < 256 ^ 8) :
    (g.tapeSegment capacity).Fits :=
  ⟨(by decide : kindLoad < 256 ^ 4), (by decide : flagRead + flagWrite < 256 ^ 4),
    (by decide : 0 < 256 ^ 8), h, (by decide : 0 < 256 ^ 8), hcapacity,
    (by decide : pageSize < 256 ^ 8)⟩

theorem fits_noteSegment (h : g.notesSize < 256 ^ 8) : g.noteSegment.Fits :=
  ⟨(by decide : kindNote < 256 ^ 4), (by decide : flagRead < 256 ^ 4),
    (by decide : headersSize < 256 ^ 8), (by decide : baseAddress + headersSize < 256 ^ 8), h, h,
    (by decide : 4 < 256 ^ 8)⟩

namespace Mapped

theorem fileSize_lt (mapped : g.Mapped capacity) : g.fileSize < wordLimit := by
  have htape := mapped.tape
  have hspace := mapped.space
  have hcells := mapped.cells
  omega

theorem tapeAddress_lt (mapped : g.Mapped capacity) : g.tapeAddress < wordLimit := by
  have hspace := mapped.space
  have hcells := mapped.cells
  omega

end Mapped

end Geometry

/-- The process of an image at its start. -/
def Start.machine (start : Start) (image : Bytes) (entry tapeAddress capacity : Nat) : Machine where
  regs := start.regs
  flags := start.flags
  rip := UInt64.ofNat entry
  memory := {
    code := .place (UInt64.ofNat baseAddress) image.toArray
    tape := ⟨UInt64.ofNat tapeAddress, (Tape.new capacity).cells⟩
    context := ⟨0, #[]⟩
    stack := start.stack }

theorem le_alignUp {align : Nat} (h : 0 < align) (value : Nat) : value ≤ alignUp value align := by
  have hdivision := Nat.div_add_mod' (value + (align - 1)) align
  have hrest := Nat.mod_lt (value + (align - 1)) h
  unfold alignUp
  omega

theorem length_pad {align : Nat} (h : 0 < align) (bytes : Bytes) :
    (pad align bytes).length = alignUp bytes.length align := by
  have hle := le_alignUp h bytes.length
  rw [pad, List.length_append, List.length_replicate]
  omega

private theorem pad_append {front : Bytes} (h : front.length % 4 = 0) (bytes : Bytes) :
    pad 4 (front ++ bytes) = front ++ pad 4 bytes := by
  have hcount : alignUp (front ++ bytes).length 4 - (front ++ bytes).length =
      alignUp bytes.length 4 - bytes.length := by
    rw [List.length_append, alignUp, alignUp]
    omega
  rw [pad, hcount, List.append_assoc, pad]

private theorem length_pad_mod (bytes : Bytes) : (pad 4 bytes).length % 4 = 0 := by
  rw [length_pad (by decide), alignUp, Nat.mul_mod_left]

/-- The bytes of a note: three words, then owner and payload, each filled up to a multiple of four
bytes. -/
def Note.encode (n : Note) : Bytes :=
  Bytes.ofNat 4 n.owner.length ++ Bytes.ofNat 4 n.payload.length ++ Bytes.ofNat 4 n.kind ++
    pad 4 n.owner ++ pad 4 n.payload

theorem Note.length_encode (n : Note) :
    n.encode.length = 12 + alignUp n.owner.length 4 + alignUp n.payload.length 4 := by
  simp only [encode, List.length_append, Bytes.length_ofNat, length_pad (by decide : 0 < 4)]

/-- Behind a multiple of four bytes it makes no difference whether the image is filled up or its parts
are. -/
theorem Note.append_eq {image : Bytes} (h : image.length % 4 = 0) (n : Note) :
    Note.append image n = image ++ n.encode := by
  have hwords : (image ++ Bytes.ofNat 4 n.owner.length ++ Bytes.ofNat 4 n.payload.length ++
      Bytes.ofNat 4 n.kind).length % 4 = 0 := by
    simp only [List.length_append, Bytes.length_ofNat]
    omega
  have howner : (image ++ Bytes.ofNat 4 n.owner.length ++ Bytes.ofNat 4 n.payload.length ++
      Bytes.ofNat 4 n.kind ++ pad 4 n.owner).length % 4 = 0 := by
    rw [List.length_append, Nat.add_mod, hwords, length_pad_mod]
  rw [Note.append, pad_append hwords, pad_append howner, Note.encode]
  simp only [List.append_assoc]

theorem Note.foldl_append {image : Bytes} (h : image.length % 4 = 0) (notes : List Note) :
    notes.foldl Note.append image = image ++ notes.flatMap Note.encode := by
  induction notes generalizing image with
  | nil => rw [List.foldl_nil, List.flatMap_nil, List.append_nil]
  | cons n rest ih =>
    have hnext : (image ++ n.encode).length % 4 = 0 := by
      rw [← append_eq h]
      exact length_pad_mod _
    rw [List.foldl_cons, append_eq h, ih hnext, List.flatMap_cons, List.append_assoc]

def moduleNotes (name digest : Bytes) : List Note :=
  [⟨Note.moduleOwner, Note.kindName, name⟩, ⟨Note.moduleOwner, Note.kindDigest, digest⟩]

/-- The notes take the place the geometry leaves for them. -/
theorem length_notes (name digest : Bytes) (codeSize : Nat) (h : digest.length = 32) :
    ((moduleNotes name digest).flatMap Note.encode).length =
      (geometry name.length codeSize).notesSize := by
  simp only [moduleNotes, List.flatMap_cons, List.flatMap_nil, List.append_nil, List.length_append,
    Note.length_encode, h]
  rfl

/-- What stands in front of the code and its padding. -/
def Geometry.front (g : Geometry) (entry capacity : Nat) (name digest : Bytes) : Bytes :=
  fileHeader entry ++ (g.segments capacity).flatMap Segment.encode ++
    (moduleNotes name digest).flatMap Note.encode

theorem Geometry.length_headers (g : Geometry) (entry capacity : Nat) :
    (fileHeader entry ++ (g.segments capacity).flatMap Segment.encode).length = headersSize := by
  rw [segments_eq]
  simp only [List.flatMap_cons, List.flatMap_nil, List.append_nil, List.length_append,
    length_fileHeader, length_encode_segment]
  rfl

theorem Geometry.length_front (entry capacity codeSize : Nat) (name digest : Bytes)
    (h : digest.length = 32) :
    ((geometry name.length codeSize).front entry capacity name digest).length =
      headersSize + (geometry name.length codeSize).notesSize := by
  rw [front, List.length_append, length_headers, length_notes _ _ codeSize h]

/-- Resizing to the offset worked out for the code cuts nothing off. -/
theorem Geometry.resize_front (entry capacity codeSize : Nat) (name digest : Bytes)
    (h : digest.length = 32) :
    resize (geometry name.length codeSize).codeOffset
        ((geometry name.length codeSize).front entry capacity name digest) =
      pad codeAlignment ((geometry name.length codeSize).front entry capacity name digest) := by
  have hlength := length_front entry capacity codeSize name digest h
  have hoffset : (geometry name.length codeSize).codeOffset = alignUp
      ((geometry name.length codeSize).front entry capacity name digest).length codeAlignment := by
    rw [hlength]
    rfl
  rw [hoffset, resize, pad, List.take_of_length_le (le_alignUp (by decide) _)]

theorem link_eq_pad (hash : Hash) {code : MachineCode} {name : String} {bytes : Bytes} {g : Geometry}
    (capacity : Nat) (hg : g = geometry (textBytes name).length code.bytes.length)
    (hpatch : code.patch (UInt64.ofNat g.tapeAddress) = .ok { code with bytes })
    (hentry : baseAddress + (g.codeOffset + code.entry) < wordLimit) :
    link hash code name capacity = .ok (pad codeAlignment
      (g.front (baseAddress + (g.codeOffset + code.entry)) capacity (textBytes name)
        (hash.digest bytes)) ++ bytes) := by
  have hsum : sumWords g.codeOffset code.entry = .ok (g.codeOffset + code.entry) :=
    if_pos (by omega)
  have hsum' : sumWords baseAddress (g.codeOffset + code.entry) =
      .ok (baseAddress + (g.codeOffset + code.entry)) := if_pos hentry
  have hheaders : (fileHeader (baseAddress + (g.codeOffset + code.entry)) ++
      (g.segments capacity).flatMap Segment.encode).length % 4 = 0 := by
    rw [g.length_headers]
    rfl
  have hnotes : (moduleNotes (textBytes name) (hash.digest bytes)).foldl Note.append
      (fileHeader (baseAddress + (g.codeOffset + code.entry)) ++
        (g.segments capacity).flatMap Segment.encode) =
      g.front (baseAddress + (g.codeOffset + code.entry)) capacity (textBytes name)
        (hash.digest bytes) := Note.foldl_append hheaders _
  have hfront := Geometry.resize_front (baseAddress + (g.codeOffset + code.entry)) capacity
    code.bytes.length (textBytes name) (hash.digest bytes) (hash.length_digest bytes)
  rw [← hg, ← hnotes] at hfront
  rw [← hnotes]
  simp only [link, ← hg, hpatch, Bind.bind, Except.bind, hsum, hsum', pure, Except.pure]
  rw [← hfront]
  rfl

theorem Emitter.build_of_link {e : Emitter} {hash : Hash} {p : Program} {name : String}
    {code : MachineCode} {image : Bytes} (hname : nameDefect? name = none)
    (hgenerate : generate p (SystemCalls.environment e.capacity) e.policy = .ok code)
    (hlink : link hash code name e.capacity = .ok image) : e.build hash p name = .ok image := by
  simp only [build, hname, hgenerate, Except.mapError, Bind.bind, Except.bind, hlink, Refusal.ofBreach]

end Module

end TapeLang
