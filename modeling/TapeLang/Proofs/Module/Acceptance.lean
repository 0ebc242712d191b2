import TapeLang.Proofs.Module.DamagedFiles

/-!
# Accepted files

A module file is described here without its reader, by the fields at its offsets, the headers that count
and the notes one after the other. A file that is accepted fits the description, except for two things
nobody looks at: the type of the file, and whether the last note ends where its segment ends.
-/

namespace TapeLang.Module

/-- The type of a file that is executed at fixed addresses. -/
def typeExecutable : Nat := 2

/-- There is a number of `count` bytes at an offset. -/
def FieldAt (bytes : Bytes) (start count value : Nat) : Prop :=
  start + count ≤ bytes.length ∧ Bytes.toNat ((bytes.drop start).take count) = value

instance (bytes : Bytes) (start count value : Nat) : Decidable (FieldAt bytes start count value) :=
  inferInstanceAs (Decidable (_ ∧ _))

/-- A program header is for notes. -/
def ForNotes (bytes : Bytes) (header : Nat) : Prop :=
  FieldAt bytes header 4 kindNote

/-- A program header is for memory that can be written. -/
def ForTape (bytes : Bytes) (header : Nat) : Prop :=
  FieldAt bytes header 4 kindLoad ∧
    ∃ flags, FieldAt bytes (header + 4) 4 flags ∧ flags / flagWrite % 2 = 1

/-- The last header with a property, among the first `count` of a table. -/
def LastHeader (P : Nat → Prop) (table count header : Nat) : Prop :=
  ∃ i < count, header = table + i * programHeaderSize ∧ P header ∧
    ∀ j, i < j → j < count → ¬ P (table + j * programHeaderSize)

/-- The file header leads to the last program header with a property. -/
def Decides (bytes : Bytes) (P : Nat → Prop) (header : Nat) : Prop :=
  ∃ table count, FieldAt bytes 32 8 table ∧ FieldAt bytes 54 2 programHeaderSize ∧
    FieldAt bytes 56 2 count ∧ LastHeader P table count header

/-- The segment of notes. -/
def NoteSegment (bytes : Bytes) (start size : Nat) : Prop :=
  ∃ header, Decides bytes (ForNotes bytes) header ∧ FieldAt bytes (header + 8) 8 start ∧
    FieldAt bytes (header + 32) 8 size

/-- The segment that is the tape. -/
def TapeSegment (bytes : Bytes) (capacity : Nat) : Prop :=
  ∃ header, Decides bytes (ForTape bytes) header ∧ FieldAt bytes (header + 40) 8 capacity

namespace Note

def payloadStart (n : Note) (start : Nat) : Nat :=
  start + 12 + alignUp n.owner.length 4

def payloadStop (n : Note) (start : Nat) : Nat :=
  n.payloadStart start + n.payload.length

/-- Where the next note starts. -/
def behind (n : Note) (start : Nat) : Nat :=
  n.payloadStart start + alignUp n.payload.length 4

end Note

/-- There is a note at an offset. -/
structure NoteAt (bytes : Bytes) (start : Nat) (n : Note) : Prop where
  ownerSize : FieldAt bytes start 4 n.owner.length
  payloadSize : FieldAt bytes (start + 4) 4 n.payload.length
  kind : FieldAt bytes (start + 8) 4 n.kind
  owner : (bytes.drop (start + 12)).take n.owner.length = n.owner
  payload : (bytes.drop (n.payloadStart start)).take n.payload.length = n.payload
  inside : n.payloadStop start ≤ bytes.length

instance (bytes : Bytes) (start : Nat) (n : Note) : Decidable (NoteAt bytes start n) :=
  decidable_of_iff
    (FieldAt bytes start 4 n.owner.length ∧ FieldAt bytes (start + 4) 4 n.payload.length ∧
      FieldAt bytes (start + 8) 4 n.kind ∧
      (bytes.drop (start + 12)).take n.owner.length = n.owner ∧
      (bytes.drop (n.payloadStart start)).take n.payload.length = n.payload ∧
      n.payloadStop start ≤ bytes.length)
    ⟨fun ⟨ownerSize, payloadSize, kind, owner, payload, inside⟩ =>
        ⟨ownerSize, payloadSize, kind, owner, payload, inside⟩,
      fun h => ⟨h.ownerSize, h.payloadSize, h.kind, h.owner, h.payload, h.inside⟩⟩

/-- The notes from an offset on, each with the offset it is at. There is one more as long as its three
words fit before the end. -/
inductive NotesAt (bytes : Bytes) (stop : Nat) : Nat → List (Nat × Note) → Prop where
  | nil {start : Nat} (full : stop < start + 12) : NotesAt bytes stop start []
  | cons {start : Nat} {n : Note} {rest : List (Nat × Note)} (fits : start + 12 ≤ stop)
      (note : NoteAt bytes start n) (next : NotesAt bytes stop (n.behind start) rest) :
      NotesAt bytes stop start ((start, n) :: rest)

/-- The note of a kind that counts: the last one that belongs to a module. -/
def deciding? (kind : Nat) (notes : List (Nat × Note)) : Option (Nat × Note) :=
  notes.reverse.find? fun m => m.2.owner = Note.moduleOwner ∧ m.2.kind = kind

/-- A file that is described by what was read from it, with the payloads of the two notes that count in
front of `limit`. -/
structure Conforms (hash : Hash) (bytes : Bytes) (info : ModuleInfo) (limit start size : Nat)
    (notes : List (Nat × Note)) : Prop where
  magic : bytes.take 4 = [0x7F, 0x45, 0x4C, 0x46]
  width : FieldAt bytes 4 1 2
  order : FieldAt bytes 5 1 1
  machine : FieldAt bytes 18 2 machineX86
  entry : FieldAt bytes 24 8 info.entry
  noteSegment : NoteSegment bytes start size
  inside : start + size ≤ bytes.length
  tapeSegment : TapeSegment bytes info.tapeCapacity
  notesAt : NotesAt bytes (start + size) start notes
  name : ∃ m ∈ deciding? Note.kindName notes,
    m.2.payload = textBytes info.name ∧ m.2.payloadStop m.1 ≤ limit
  digest : ∃ m ∈ deciding? Note.kindDigest notes,
    m.2.payload = info.digest ∧ m.2.payloadStop m.1 ≤ limit
  code : info.digest = hash.digest (bytes.drop (alignUp (start + size) codeAlignment))

/-- A file that is what a module file is said to be: executable, with both payloads in their segment. -/
def Documented (hash : Hash) (bytes : Bytes) (info : ModuleInfo) : Prop :=
  FieldAt bytes 16 2 typeExecutable ∧
    ∃ start size notes, Conforms hash bytes info (start + size) start size notes

/-! A file fits the description in one way only. -/

theorem FieldAt.unique {bytes : Bytes} {start count value value' : Nat}
    (h : FieldAt bytes start count value) (h' : FieldAt bytes start count value') : value = value' :=
  h.2.symm.trans h'.2

theorem LastHeader.unique {P : Nat → Prop} {table count header header' : Nat}
    (h : LastHeader P table count header) (h' : LastHeader P table count header') :
    header = header' := by
  obtain ⟨i, hi, rfl, hP, hlast⟩ := h
  obtain ⟨j, hj, rfl, hP', hlast'⟩ := h'
  rcases Nat.lt_trichotomy i j with hlt | rfl | hlt
  · exact absurd hP' (hlast j hlt hj)
  · rfl
  · exact absurd hP (hlast' i hlt hi)

theorem Decides.unique {bytes : Bytes} {P : Nat → Prop} {header header' : Nat}
    (h : Decides bytes P header) (h' : Decides bytes P header') : header = header' := by
  obtain ⟨table, count, htable, -, hcount, hlast⟩ := h
  obtain ⟨table', count', htable', -, hcount', hlast'⟩ := h'
  obtain rfl := htable.unique htable'
  obtain rfl := hcount.unique hcount'
  exact hlast.unique hlast'

theorem NoteSegment.unique {bytes : Bytes} {start size start' size' : Nat}
    (h : NoteSegment bytes start size) (h' : NoteSegment bytes start' size') :
    start = start' ∧ size = size' := by
  obtain ⟨header, hheader, hstart, hsize⟩ := h
  obtain ⟨header', hheader', hstart', hsize'⟩ := h'
  obtain rfl := hheader.unique hheader'
  exact ⟨hstart.unique hstart', hsize.unique hsize'⟩

theorem NoteAt.unique {bytes : Bytes} {start : Nat} {n n' : Note} (h : NoteAt bytes start n)
    (h' : NoteAt bytes start n') : n = n' := by
  have hownerSize := h.ownerSize.unique h'.ownerSize
  have hpayloadSize := h.payloadSize.unique h'.payloadSize
  have howner : n.owner = n'.owner := by rw [← h.owner, hownerSize, h'.owner]
  have hstart : n.payloadStart start = n'.payloadStart start := by
    rw [Note.payloadStart, howner, Note.payloadStart]
  have hpayload : n.payload = n'.payload := by rw [← h.payload, hstart, hpayloadSize, h'.payload]
  cases n
  cases n'
  rw [Note.mk.injEq]
  exact ⟨howner, h.kind.unique h'.kind, hpayload⟩

theorem NotesAt.unique {bytes : Bytes} {stop start : Nat} {notes notes' : List (Nat × Note)}
    (h : NotesAt bytes stop start notes) (h' : NotesAt bytes stop start notes') : notes = notes' := by
  induction h generalizing notes' with
  | nil full =>
    cases h' with
    | nil => rfl
    | cons fits => exact absurd fits (Nat.not_le_of_gt full)
  | cons fits note next ih =>
    cases h' with
    | nil full => exact absurd fits (Nat.not_le_of_gt full)
    | cons _ note' next' =>
      obtain rfl := note.unique note'
      rw [ih next']

/-! Only the last note can run past the end. -/

theorem NotesAt.inside_of_mem_dropLast {bytes : Bytes} {stop start : Nat} {notes : List (Nat × Note)}
    (h : NotesAt bytes stop start notes) :
    ∀ m ∈ notes.dropLast, m.2.payloadStop m.1 ≤ stop := by
  induction h with
  | nil full => exact nofun
  | @cons start n rest fits note next ih =>
    cases next with
    | nil full => exact nofun
    | cons fits' note' next' =>
      rintro m (_ | ⟨_, hm⟩)
      · -- The next note starts behind this one, and in front of the end.
        have hround := le_alignUp (by decide : 0 < 4) n.payload.length
        rw [Note.behind] at fits'
        show n.payloadStart start + n.payload.length ≤ stop
        omega
      · exact ih m hm

/-! Fields. -/

theorem slice?_eq_some {bytes part : Bytes} {start stop : Nat}
    (h : slice? bytes.toArray start stop = some part) :
    start ≤ stop ∧ stop ≤ bytes.length ∧ (bytes.drop start).take (stop - start) = part := by
  unfold slice? at h
  split at h
  next inside =>
    obtain rfl := Option.some.inj h
    refine ⟨inside.1, inside.2, ?_⟩
    rw [Array.toList_extract, List.extract_eq_take_drop]
  next => cases h

section

variable {α : Type} {f : Nat → Reading α} {r : α} {a b : Nat}

/-! A reading that succeeds went on with the sums, products and roundings as they are. -/

theorem of_offset_bind (h : (offset a b >>= f) = .ok r) : f (a + b) = .ok r := by
  unfold offset at h
  split at h
  next => exact h
  next => cases h

private theorem of_sumWords_bind (h : (Refusal.ofBreach (sumWords a b) >>= f) = .ok r) :
    f (a + b) = .ok r := by
  unfold sumWords at h
  split at h
  next => exact h
  next => cases h

private theorem of_productWords_bind (h : (Refusal.ofBreach (productWords a b) >>= f) = .ok r) :
    f (a * b) = .ok r := by
  unfold productWords at h
  split at h
  next => exact h
  next => cases h

private theorem of_alignWord_bind (h : (Refusal.ofBreach (alignWord a b) >>= f) = .ok r) :
    f (alignUp a b) = .ok r := by
  unfold alignWord at h
  split at h
  next => exact h
  next => cases h

end

private theorem slice?_of_slice {file : Array UInt8} {start stop : Nat} {part : Bytes}
    (h : slice file start stop = .ok part) : slice? file start stop = some part := by
  unfold slice at h
  split at h
  next part' hpart => rw [hpart, Except.ok.inj h]
  next => cases h

theorem fieldAt_of_readNat {bytes : Bytes} {start count value : Nat}
    (h : readNat bytes.toArray start count = .ok value) : FieldAt bytes start count value := by
  obtain ⟨part, hpart, h⟩ := Except.bind_eq_ok.mp (of_offset_bind h)
  obtain ⟨-, hle, hpart⟩ := slice?_eq_some (orMalformed_eq_ok.mp hpart)
  rw [Nat.add_sub_cancel_left] at hpart
  rw [← hpart] at h
  exact ⟨hle, Except.ok.inj h⟩

private theorem fieldAt_of_byteAt {bytes : Bytes} {i : Nat} {b : UInt8}
    (h : byteAt bytes.toArray i = .ok b) : FieldAt bytes i 1 b.toNat := by
  unfold byteAt at h
  split at h
  next b' hb =>
    obtain rfl := Except.ok.inj h
    rw [List.getElem?_toArray] at hb
    obtain ⟨hlt, hb⟩ := List.getElem?_eq_some_iff.mp hb
    refine ⟨hlt, ?_⟩
    rw [List.drop_eq_getElem_cons hlt, hb]
    simp [Bytes.toNat]
  next => cases h

/-! Headers. -/

theorem LastHeader.snoc {P : Nat → Prop} {table count header : Nat}
    (h : LastHeader P table count header) (hnext : ¬ P (table + count * programHeaderSize)) :
    LastHeader P table (count + 1) header := by
  obtain ⟨i, hi, hheader, hP, hlast⟩ := h
  refine ⟨i, Nat.lt_succ_of_lt hi, hheader, hP, fun j hij hj => ?_⟩
  rcases Nat.lt_succ_iff_lt_or_eq.mp hj with hlt | rfl
  · exact hlast j hij hlt
  · exact hnext

theorem LastHeader.last {P : Nat → Prop} {table count : Nat}
    (h : P (table + count * programHeaderSize)) :
    LastHeader P table (count + 1) (table + count * programHeaderSize) :=
  ⟨count, Nat.lt_succ_self count, rfl, h, fun j hlt hle => absurd hle (by omega)⟩

section

variable {bytes : Bytes} {table i : Nat} {found found' : Located}

/-- A header says where the notes are, or how large the tape is, or nothing. -/
theorem locate_eq_ok (h : locate bytes.toArray table found i = .ok found') {header : Nat}
    (hheader : header = table + i * programHeaderSize) :
    (ForNotes bytes header ∧ ¬ ForTape bytes header ∧ ∃ start size,
        FieldAt bytes (header + 8) 8 start ∧ FieldAt bytes (header + 32) 8 size ∧
        found' = { found with notes := some (start, size) }) ∨
      (ForTape bytes header ∧ ¬ ForNotes bytes header ∧ ∃ capacity,
        FieldAt bytes (header + 40) 8 capacity ∧
        found' = { found with capacity := some capacity }) ∨
      (¬ ForNotes bytes header ∧ ¬ ForTape bytes header ∧ found' = found) := by
  have h := of_offset_bind (of_productWords_bind h)
  rw [← hheader] at h
  obtain ⟨kind, hkind, h⟩ := Except.bind_eq_ok.mp h
  obtain ⟨flags, hflags, h⟩ := Except.bind_eq_ok.mp (of_offset_bind h)
  have hkind := fieldAt_of_readNat hkind
  have hflags := fieldAt_of_readNat hflags
  split at h
  next isNote =>
    obtain ⟨start, hstart, h⟩ := Except.bind_eq_ok.mp (of_offset_bind h)
    obtain ⟨size, hsize, h⟩ := Except.bind_eq_ok.mp (of_offset_bind h)
    rw [isNote] at hkind
    exact .inl ⟨hkind, fun other => absurd (hkind.unique other.1) (by decide), start, size,
      fieldAt_of_readNat hstart, fieldAt_of_readNat hsize, (Except.ok.inj h).symm⟩
  next notNote =>
    have hnotes : ¬ ForNotes bytes header := fun other => notNote (hkind.unique other)
    split at h
    next isTape =>
      obtain ⟨capacity, hcapacity, h⟩ := Except.bind_eq_ok.mp (of_offset_bind h)
      rw [isTape.1] at hkind
      exact .inr (.inl ⟨⟨hkind, flags, hflags, isTape.2⟩, hnotes, capacity,
        fieldAt_of_readNat hcapacity, (Except.ok.inj h).symm⟩)
    next notTape =>
      refine .inr (.inr ⟨hnotes, ?_, (Except.ok.inj h).symm⟩)
      rintro ⟨hload, flags', hflags', hwrite⟩
      rw [← hflags.unique hflags'] at hwrite
      exact notTape ⟨hkind.unique hload, hwrite⟩

/-- What the headers up to one say is what the last of each kind says. -/
theorem foldlM_locate_eq_ok {count : Nat}
    (h : (List.range count).foldlM (locate bytes.toArray table) {} = .ok found) :
    (∀ start size, found.notes = some (start, size) →
      ∃ header, LastHeader (ForNotes bytes) table count header ∧
        FieldAt bytes (header + 8) 8 start ∧ FieldAt bytes (header + 32) 8 size) ∧
      ∀ capacity, found.capacity = some capacity →
        ∃ header, LastHeader (ForTape bytes) table count header ∧
          FieldAt bytes (header + 40) 8 capacity := by
  induction count generalizing found with
  | zero =>
    obtain rfl := Except.ok.inj h
    exact ⟨nofun, nofun⟩
  | succ count ih =>
    rw [List.range_succ, List.foldlM_append] at h
    obtain ⟨before, hbefore, h⟩ := Except.bind_eq_ok.mp h
    rw [List.foldlM_cons] at h
    obtain ⟨after, hlocate, h⟩ := Except.bind_eq_ok.mp h
    obtain rfl := Except.ok.inj h
    obtain ⟨hnotes, htape⟩ := ih hbefore
    -- A header that says nothing of a kind leaves the last one of that kind as it was.
    have keepNotes (hnext : ¬ ForNotes bytes (table + count * programHeaderSize)) :
        ∀ start size, before.notes = some (start, size) →
          ∃ header, LastHeader (ForNotes bytes) table (count + 1) header ∧
            FieldAt bytes (header + 8) 8 start ∧ FieldAt bytes (header + 32) 8 size := by
      intro start size hfound
      obtain ⟨header, hlast, hfields⟩ := hnotes start size hfound
      exact ⟨header, hlast.snoc hnext, hfields⟩
    have keepTape (hnext : ¬ ForTape bytes (table + count * programHeaderSize)) :
        ∀ capacity, before.capacity = some capacity →
          ∃ header, LastHeader (ForTape bytes) table (count + 1) header ∧
            FieldAt bytes (header + 40) 8 capacity := by
      intro capacity hfound
      obtain ⟨header, hlast, hfield⟩ := htape capacity hfound
      exact ⟨header, hlast.snoc hnext, hfield⟩
    rcases locate_eq_ok hlocate rfl with ⟨hP, hother, start, size, hstart, hsize, rfl⟩ |
      ⟨hP, hother, capacity, hcapacity, rfl⟩ | ⟨hnot, hother, rfl⟩
    · refine ⟨fun start' size' hfound => ?_, keepTape hother⟩
      obtain ⟨rfl, rfl⟩ := Prod.mk.inj (Option.some.inj hfound)
      exact ⟨_, .last hP, hstart, hsize⟩
    · refine ⟨keepNotes hother, fun capacity' hfound => ?_⟩
      obtain rfl := Option.some.inj hfound
      exact ⟨_, .last hP, hcapacity⟩
    · exact ⟨keepNotes hnot, keepTape hother⟩

end

/-! Notes. -/

section

variable {bytes : Bytes} {stop start : Nat}

theorem noteAt_of_readNote {n : Note} {next : Nat}
    (h : readNote bytes.toArray start = .ok (n, next)) :
    NoteAt bytes start n ∧ next = n.behind start := by
  obtain ⟨ownerSize, hownerSize, h⟩ := Except.bind_eq_ok.mp h
  obtain ⟨payloadSize, hpayloadSize, h⟩ := Except.bind_eq_ok.mp (of_sumWords_bind h)
  obtain ⟨kind, hkind, h⟩ := Except.bind_eq_ok.mp (of_sumWords_bind h)
  have h := of_offset_bind (of_offset_bind (of_alignWord_bind (of_sumWords_bind h)))
  obtain ⟨payload, hpayload, h⟩ := Except.bind_eq_ok.mp h
  obtain ⟨owner, howner, h⟩ := Except.bind_eq_ok.mp (of_sumWords_bind h)
  obtain ⟨rfl, rfl⟩ := Prod.mk.inj (Except.ok.inj (of_offset_bind (of_alignWord_bind h)))
  obtain ⟨-, howner_le, howner⟩ := slice?_eq_some (orMalformed_eq_ok.mp howner)
  obtain ⟨-, hpayload_le, hpayload⟩ := slice?_eq_some (orMalformed_eq_ok.mp hpayload)
  rw [Nat.add_sub_cancel_left] at howner hpayload
  -- Owner and payload are as long as their words say.
  have howner_length : owner.length = ownerSize := by
    rw [← howner, List.length_take_of_le (by rw [List.length_drop]; omega)]
  have hpayload_length : payload.length = payloadSize := by
    rw [← hpayload, List.length_take_of_le (by rw [List.length_drop]; omega)]
  subst howner_length hpayload_length
  exact ⟨⟨fieldAt_of_readNat hownerSize, fieldAt_of_readNat hpayloadSize, fieldAt_of_readNat hkind,
    howner, hpayload, hpayload_le⟩, rfl⟩

/-- Notes are taken in as they stand one after the other. -/
theorem notesAt_of_readNotes {bound : Nat} {d d' : Described}
    (h : readNotes bytes.toArray stop bound start d = .ok d') :
    ∃ notes, NotesAt bytes stop start notes ∧
      notes.foldlM (fun d m => Described.note d m.2) d = .ok d' := by
  induction bound generalizing start d with
  | zero => cases h
  | succ bound ih =>
    have h := of_offset_bind h
    split at h
    next fits =>
      obtain ⟨⟨n, next⟩, hnote, h⟩ := Except.bind_eq_ok.mp h
      obtain ⟨taken, htaken, h⟩ := Except.bind_eq_ok.mp h
      obtain ⟨note, rfl⟩ := noteAt_of_readNote hnote
      obtain ⟨rest, hrest, hfold⟩ := ih h
      refine ⟨(start, n) :: rest, .cons fits note hrest, ?_⟩
      rw [List.foldlM_cons, htaken]
      exact hfold
    next full =>
      exact ⟨[], .nil (Nat.lt_of_not_le full), h⟩

private theorem lastOwn?_map_snd (kind : Nat) (notes : List (Nat × Note)) :
    lastOwn? kind (notes.map Prod.snd) = (deciding? kind notes).map Prod.snd := by
  rw [lastOwn?, ← List.map_reverse, List.find?_map]
  rfl

/-- What was taken in is what the last note of each kind says. -/
theorem foldlM_note_eq_ok {notes : List (Nat × Note)} {d : Described}
    (h : notes.foldlM (fun d m => Described.note d m.2) {} = .ok d) :
    d.name.map textBytes = (deciding? Note.kindName notes).map (·.2.payload) ∧
      d.digest = (deciding? Note.kindDigest notes).map (·.2.payload) := by
  have hfold : (notes.map Prod.snd).foldlM Described.note {} = .ok d := by
    rw [List.foldlM_map]
    exact h
  rw [foldlM_note_eq] at hfold
  split at hfold
  next => cases hfold
  next sound =>
    obtain rfl := Except.ok.inj hfold
    constructor
    · rw [textBytes_summary_name sound, lastOwn?_map_snd, Option.map_map]
      rfl
    · show (lastOwn? Note.kindDigest (notes.map Prod.snd)).map Note.payload = _
      rw [lastOwn?_map_snd, Option.map_map]
      rfl

end

/-! Whole files. -/

section

variable {hash : Hash} {bytes : Bytes} {info : ModuleInfo} {start size limit : Nat}
  {notes : List (Nat × Note)}

private theorem NotesAt.noteAt_of_mem {stop : Nat} (h : NotesAt bytes stop start notes) :
    ∀ m ∈ notes, NoteAt bytes m.1 m.2 := by
  induction h with
  | nil full => exact nofun
  | cons fits note next ih =>
    rintro m (_ | ⟨_, hm⟩)
    · exact note
    · exact ih m hm

private theorem mem_of_deciding? {kind : Nat} {m : Nat × Note} (h : m ∈ deciding? kind notes) :
    m ∈ notes :=
  List.mem_reverse.mp (List.mem_of_find?_eq_some h)

private theorem code_of_codeAfter {notesEnd : Nat} {code : Bytes}
    (h : codeAfter bytes.toArray notesEnd = .ok code) :
    code = bytes.drop (alignUp notesEnd codeAlignment) := by
  by_cases hlimit : alignUp notesEnd codeAlignment < wordLimit
  · rw [codeAfter_eq bytes hlimit] at h
    exact (Except.ok.inj h).symm
  · rw [codeAfter, alignWord, if_neg hlimit] at h
    cases h

/-- A file that is accepted fits the description, with payloads somewhere in the file. -/
theorem conforms_of_inspect (h : inspect hash bytes = .ok info) :
    ∃ start size notes, Conforms hash bytes info bytes.length start size notes := by
  obtain ⟨table, count, start, size, passed⟩ := inspect_eq_ok h
  obtain ⟨hnoteHeader, htapeHeader⟩ := foldlM_locate_eq_ok passed.located
  obtain ⟨noteHeader, hlastNote, hstart, hsize⟩ := hnoteHeader start size rfl
  obtain ⟨tapeHeader, hlastTape, hcapacity⟩ := htapeHeader info.tapeCapacity rfl
  obtain ⟨notes, hnotes, hfold⟩ := notesAt_of_readNotes passed.described
  obtain ⟨hname, hdigest⟩ := foldlM_note_eq_ok hfold
  obtain ⟨nameNote, hnameNote, hnamePayload⟩ := Option.map_eq_some_iff.mp hname.symm
  obtain ⟨digestNote, hdigestNote, hdigestPayload⟩ := Option.map_eq_some_iff.mp hdigest.symm
  obtain ⟨code, hcode, hmatch⟩ := passed.code
  have decides {P : Nat → Prop} {header : Nat} (last : LastHeader P table count header) :
      Decides bytes P header :=
    ⟨table, count, fieldAt_of_readNat passed.readTable, fieldAt_of_readNat passed.headerSize,
      fieldAt_of_readNat passed.readCount, last⟩
  have inside {kind : Nat} {m : Nat × Note} (hm : m ∈ deciding? kind notes) :
      m.2.payloadStop m.1 ≤ bytes.length :=
    (hnotes.noteAt_of_mem m (mem_of_deciding? hm)).inside
  refine ⟨start, size, notes, ?_, fieldAt_of_byteAt passed.width, fieldAt_of_byteAt passed.order,
    fieldAt_of_readNat passed.machine, fieldAt_of_readNat passed.entry,
    ⟨noteHeader, decides hlastNote, hstart, hsize⟩, passed.inside,
    ⟨tapeHeader, decides hlastTape, hcapacity⟩, hnotes,
    ⟨nameNote, hnameNote, hnamePayload, inside hnameNote⟩,
    ⟨digestNote, hdigestNote, hdigestPayload, inside hdigestNote⟩, ?_⟩
  · obtain ⟨-, -, hmagic⟩ := slice?_eq_some (slice?_of_slice passed.magic)
    exact hmagic
  · rw [← hmatch, code_of_codeAfter hcode]

/-- A description holds of a file with one note segment and one list of notes only. -/
theorem Conforms.unique {limit' start' size' : Nat} {notes' : List (Nat × Note)}
    (h : Conforms hash bytes info limit start size notes)
    (h' : Conforms hash bytes info limit' start' size' notes') :
    start = start' ∧ size = size' ∧ notes = notes' := by
  obtain ⟨rfl, rfl⟩ := h.noteSegment.unique h'.noteSegment
  exact ⟨rfl, rfl, h.notesAt.unique h'.notesAt⟩

/-- A note is in its segment unless it is the last of all. -/
theorem NotesAt.inside_of_last {stop : Nat} {m : Nat × Note} (h : NotesAt bytes stop start notes)
    (hm : m ∈ notes) (hlast : m ∈ notes.getLast? → m.2.payloadStop m.1 ≤ stop) :
    m.2.payloadStop m.1 ≤ stop := by
  have hne : notes ≠ [] := List.ne_nil_of_mem hm
  rw [← List.dropLast_concat_getLast hne, List.mem_append, List.mem_singleton] at hm
  rcases hm with hm | rfl
  · exact h.inside_of_mem_dropLast m hm
  · exact hlast (List.getLast?_eq_some_getLast hne)

theorem Conforms.documented_iff (h : Conforms hash bytes info limit start size notes) :
    Documented hash bytes info ↔ FieldAt bytes 16 2 typeExecutable ∧
      ∀ m ∈ notes.getLast?,
        m ∈ deciding? Note.kindName notes ∨ m ∈ deciding? Note.kindDigest notes →
        m.2.payloadStop m.1 ≤ start + size := by
  constructor
  · rintro ⟨htype, start', size', notes', h'⟩
    obtain ⟨rfl, rfl, rfl⟩ := h.unique h'
    refine ⟨htype, fun m _ counts => ?_⟩
    obtain ⟨nameNote, hnameNote, -, hnameStop⟩ := h'.name
    obtain ⟨digestNote, hdigestNote, -, hdigestStop⟩ := h'.digest
    rcases counts with hm | hm
    · rwa [Option.mem_unique hm hnameNote]
    · rwa [Option.mem_unique hm hdigestNote]
  · rintro ⟨htype, hlast⟩
    obtain ⟨nameNote, hnameNote, hname, -⟩ := h.name
    obtain ⟨digestNote, hdigestNote, hdigest, -⟩ := h.digest
    have hnameStop := h.notesAt.inside_of_last (mem_of_deciding? hnameNote)
      fun last => hlast _ last (.inl hnameNote)
    have hdigestStop := h.notesAt.inside_of_last (mem_of_deciding? hdigestNote)
      fun last => hlast _ last (.inr hdigestNote)
    exact ⟨htype, start, size, notes, { h with
      name := ⟨nameNote, hnameNote, hname, hnameStop⟩
      digest := ⟨digestNote, hdigestNote, hdigest, hdigestStop⟩ }⟩

/-- What it takes to be accepted. Whatever bytes are accepted, they fit the description with the two
payloads somewhere in the file, and all notes but the last end in their segment. So the file is what it is
said to be exactly if its type says that it is executable, and the last note ends in the segment if it is
one of the two. -/
theorem inspect_accepts (h : inspect hash bytes = .ok info) :
    ∃ start size notes, Conforms hash bytes info bytes.length start size notes ∧
      (∀ m ∈ notes.dropLast, m.2.payloadStop m.1 ≤ start + size) ∧
      (Documented hash bytes info ↔ FieldAt bytes 16 2 typeExecutable ∧
        ∀ m ∈ notes.getLast?,
          m ∈ deciding? Note.kindName notes ∨ m ∈ deciding? Note.kindDigest notes →
          m.2.payloadStop m.1 ≤ start + size) := by
  obtain ⟨start, size, notes, conforms⟩ := conforms_of_inspect h
  exact ⟨start, size, notes, conforms, conforms.notesAt.inside_of_mem_dropLast,
    conforms.documented_iff⟩

end

/-- The digest of a loop without end. -/
def loopDigest : Bytes :=
  [0x1E, 0xE0, 0x95, 0x86, 0x52, 0xEE, 0x54, 0xDA, 0xD7, 0x18, 0x1A, 0x91, 0xD7, 0xD7,
    0x2E, 0x86, 0x83, 0xAB, 0x7D, 0x21, 0xFE, 0x4A, 0xB9, 0xC8, 0x8B, 0x40, 0x81, 0x68,
    0x1A, 0x7C, 0x55, 0xD1]

/-- A module of a loop without end, with a type and a size of the note segment to choose. -/
def loopModule (type notesSize : Nat) : Bytes :=
  (fileHeader 0x400140).take 16 ++ Bytes.ofNat 2 type ++ (fileHeader 0x400140).drop 18 ++
    (Geometry.segments ⟨notesSize, 0, 0, 0⟩ 1).flatMap Segment.encode ++
    (moduleNotes (textBytes "a") loopDigest).flatMap Note.encode ++
    List.replicate 12 0 ++ [0xEB, 0xFE]

def loopInfo : ModuleInfo :=
  ⟨"a", loopDigest, 0x400140, 1⟩

private theorem inspect_loopModule_shared : inspect .blake3 (loopModule 3 76) = .ok loopInfo := by
  decide +kernel

private theorem inspect_loopModule_short :
    inspect .blake3 (loopModule typeExecutable 75) = .ok loopInfo := by
  decide +kernel

theorem inspect_accepts_loop :
    inspect .blake3 (loopModule 3 76) = .ok loopInfo ∧
      ∃ start size notes,
        Conforms .blake3 (loopModule 3 76) loopInfo (loopModule 3 76).length start size notes ∧
        ∀ m ∈ notes.dropLast, m.2.payloadStop m.1 ≤ start + size := by
  have h := inspect_loopModule_shared
  obtain ⟨start, size, notes, conforms, inside, -⟩ := inspect_accepts h
  exact ⟨h, start, size, notes, conforms, inside⟩

/-- The notes of a short segment: the second one is as long as before. -/
theorem notesAt_loopModule_short :
    NotesAt (loopModule typeExecutable 75) 307 232
      [(232, ⟨Note.moduleOwner, Note.kindName, [0x61]⟩),
        (256, ⟨Note.moduleOwner, Note.kindDigest, loopDigest⟩)] := by
  have name : NoteAt (loopModule typeExecutable 75) 232
      ⟨Note.moduleOwner, Note.kindName, [0x61]⟩ := by decide +kernel
  have digest : NoteAt (loopModule typeExecutable 75) 256
      ⟨Note.moduleOwner, Note.kindDigest, loopDigest⟩ := by decide +kernel
  exact .cons (by decide) name (.cons (by decide) digest (.nil (by decide)))

private theorem noteSegment_loopModule_short : NoteSegment (loopModule typeExecutable 75) 232 75 :=
  ⟨176, ⟨64, 3, by decide +kernel, by decide +kernel, by decide +kernel, 2, by decide, by decide,
    (by decide +kernel : FieldAt (loopModule typeExecutable 75) 176 4 kindNote), by omega⟩,
    by decide +kernel, by decide +kernel⟩

/-- A file that is shared instead of executable is accepted, and one with a digest that is partly outside
the note segment. -/
theorem inspect_accepts_undocumented :
    (inspect .blake3 (loopModule 3 76) = .ok loopInfo ∧
        ¬ FieldAt (loopModule 3 76) 16 2 typeExecutable ∧
        ¬ Documented .blake3 (loopModule 3 76) loopInfo) ∧
      inspect .blake3 (loopModule typeExecutable 75) = .ok loopInfo ∧
        NoteSegment (loopModule typeExecutable 75) 232 75 ∧
        (∀ notes, NotesAt (loopModule typeExecutable 75) (232 + 75) 232 notes →
          ∀ m ∈ notes, m.2.kind = Note.kindDigest → m.2.payloadStop m.1 = 308) ∧
        ¬ Documented .blake3 (loopModule typeExecutable 75) loopInfo := by
  have htype : ¬ FieldAt (loopModule 3 76) 16 2 typeExecutable := by decide +kernel
  refine ⟨⟨inspect_loopModule_shared, htype, fun documented => htype documented.1⟩,
    inspect_loopModule_short, noteSegment_loopModule_short, fun notes hnotes m hm hkind => ?_,
    fun documented => ?_⟩
  · obtain rfl := hnotes.unique notesAt_loopModule_short
    rw [List.mem_cons, List.mem_singleton] at hm
    rcases hm with rfl | rfl
    · exact absurd hkind (by decide)
    · decide
  · obtain ⟨start, size, notes, conforms⟩ := conforms_of_inspect inspect_loopModule_short
    obtain ⟨rfl, rfl⟩ := conforms.noteSegment.unique noteSegment_loopModule_short
    obtain rfl := conforms.notesAt.unique notesAt_loopModule_short
    have hlast := (conforms.documented_iff.mp documented).2 _ rfl (.inr rfl)
    exact absurd hlast (by decide)

end TapeLang.Module
