import TapeLang.Proofs.Module.Inspection

/-!
# Reading arbitrary bytes

The reader believes nothing a file says about itself: whatever the bytes are, it ends with what the file
says or with a defect. No sum, product or rounding leaves the machine's words and no index leaves the
file, because every number it does not check is at most a few words wide or already known to be inside.
-/

namespace TapeLang.Module

/-- A reading ends, with a result that has a property or with a defect of the file. -/
def Settles {α : Type} (x : Reading α) (P : α → Prop) : Prop :=
  (∃ a, x = .ok a ∧ P a) ∨ ∃ d, x = malformed d

namespace Settles

variable {α β : Type} {P : α → Prop} {Q : β → Prop}

theorem ok {a : α} (h : P a) : Settles (.ok a) P :=
  .inl ⟨a, rfl, h⟩

theorem malformed (d : Defect) : Settles (malformed d) P :=
  .inr ⟨d, rfl⟩

theorem bind {x : Reading α} {f : α → Reading β} (h : Settles x P)
    (hnext : ∀ a, P a → Settles (f a) Q) : Settles (x >>= f) Q := by
  rcases h with ⟨a, rfl, ha⟩ | ⟨d, rfl⟩
  · exact hnext a ha
  · exact .malformed d

theorem ite {c : Prop} [Decidable c] {x y : Reading α} (h : c → Settles x P)
    (h' : ¬ c → Settles y P) : Settles (if c then x else y) P := by
  split
  next hc => exact h hc
  next hc => exact h' hc

theorem orMalformed (d : Defect) (o : Option α) : Settles (orMalformed d o) fun a => o = some a := by
  cases o with
  | none => exact .malformed d
  | some a => exact .ok rfl

/-- A precondition that holds is no end of the reading. -/
theorem ofBreach {x : Except Breach α} {a : α} (h : x = .ok a) :
    Settles (Refusal.ofBreach x) fun b => b = a :=
  .inl ⟨a, Refusal.ofBreach_eq_ok.mpr h, rfl⟩

theorem foldlM {f : β → α → Reading β} {as : List α}
    (h : ∀ a ∈ as, ∀ b, Settles (f b a) fun _ => True) (b : β) :
    Settles (as.foldlM f b) fun _ => True := by
  induction as generalizing b with
  | nil => exact .ok trivial
  | cons a rest ih =>
    rw [List.foldlM_cons]
    refine .bind (h a List.mem_cons_self b) fun b _ => ?_
    exact ih (fun a ha => h a (List.mem_cons_of_mem _ ha)) b

end Settles

/-! Numbers. -/

theorem toNat_lt (bytes : Bytes) : Bytes.toNat bytes < 256 ^ bytes.length := by
  have hmod := Bytes.toNat_ofNat bytes.length (Bytes.toNat bytes)
  rw [Bytes.ofNat_toNat] at hmod
  exact Nat.lt_of_le_of_lt (Nat.le_of_eq hmod) (Nat.mod_lt _ (Nat.pow_pos (by decide)))

private theorem length_of_slice? {file : Array UInt8} {start stop : Nat} {part : Bytes}
    (h : slice? file start stop = some part) :
    part.length = stop - start ∧ start ≤ stop ∧ stop ≤ file.size := by
  unfold slice? at h
  split at h
  next inside =>
    obtain rfl := Option.some.inj h
    refine ⟨?_, inside⟩
    rw [Array.length_toList, Array.size_extract, Nat.min_eq_left inside.2]
  next => cases h

theorem offset_settles (base extra : Nat) :
    Settles (offset base extra) fun n => n = base + extra := by
  refine .ite (fun _ => .ok rfl) fun _ => .malformed _

/-- A number of some bytes is below the power of 256, and its bytes are in the file. -/
theorem readNat_settles (file : Array UInt8) (start count : Nat) :
    Settles (readNat file start count) fun n => n < 256 ^ count ∧ start + count ≤ file.size := by
  refine .bind (offset_settles start count) fun stop hstop => ?_
  refine .bind (.orMalformed _ _) fun part hpart => .ok ?_
  obtain ⟨hlength, -, hle⟩ := length_of_slice? hpart
  have hcount : part.length = count := by omega
  exact ⟨hcount ▸ toNat_lt part, hstop ▸ hle⟩

/-! Steps. -/

theorem locate_settles {file : Array UInt8} {i : Nat} (h : i < 256 ^ 2) (table : Nat)
    (found : Located) : Settles (locate file table found i) fun _ => True := by
  have hproduct : i * programHeaderSize < wordLimit :=
    Nat.lt_trans (Nat.mul_lt_mul_of_pos_right h (by decide)) (by decide)
  refine .bind (.ofBreach (if_pos hproduct)) fun _ _ => .bind (offset_settles _ _) fun _ _ =>
    .bind (readNat_settles _ _ _) fun _ _ => .bind (offset_settles _ _) fun _ _ =>
    .bind (readNat_settles _ _ _) fun _ _ => .ite (fun _ => ?_) fun _ => .ite (fun _ => ?_) fun _ =>
    .ok trivial
  · exact .bind (offset_settles _ _) fun _ _ => .bind (readNat_settles _ _ _) fun _ _ =>
      .bind (offset_settles _ _) fun _ _ => .bind (readNat_settles _ _ _) fun _ _ => .ok trivial
  · exact .bind (offset_settles _ _) fun _ _ => .bind (readNat_settles _ _ _) fun _ _ => .ok trivial

private theorem Described.note_settles (d : Described) (n : Note) :
    Settles (d.note n) fun _ => True := by
  refine .ite (fun _ => .ok trivial) fun _ => .ite (fun _ => ?_) fun _ =>
    .ite (fun _ => .ite (fun _ => .ok trivial) fun _ => .malformed _) fun _ => .ok trivial
  split
  next => exact .ok trivial
  next => exact .malformed _

/-- A note whose three words are in the file is read past them. -/
theorem readNote_settles {file : Array UInt8} {start : Nat} (h : start + 12 ≤ file.size)
    (hfile : file.size < 2 ^ 63) : Settles (readNote file start) fun r => start + 12 ≤ r.2 := by
  have hword : wordLimit = 2 ^ 64 := rfl
  have hround : ∀ {size : Nat}, size < 256 ^ 4 → alignUp size 4 < wordLimit := by
    intro size hsize
    have hle := alignUp_le size 4
    omega
  refine .bind (readNat_settles file start 4) fun ownerSize hownerSize => ?_
  refine .bind (.ofBreach (if_pos (by omega))) fun _ _ => ?_
  refine .bind (readNat_settles _ _ 4) fun payloadSize hpayloadSize => ?_
  refine .bind (.ofBreach (if_pos (by omega))) fun _ _ => .bind (readNat_settles _ _ 4) fun kind _ => ?_
  refine .bind (.ofBreach (if_pos (by omega))) fun ownerAt hownerAt => ?_
  refine .bind (.ofBreach (if_pos (hround hownerSize.1))) fun _ _ => ?_
  refine .bind (offset_settles _ _) fun payloadAt hpayloadAt => ?_
  refine .bind (offset_settles _ _) fun _ _ => .bind (.orMalformed _ _) fun payload _ => ?_
  refine .bind (.ofBreach (if_pos (by omega))) fun _ _ => .bind (.orMalformed _ _) fun owner _ => ?_
  refine .bind (.ofBreach (if_pos (hround hpayloadSize.1))) fun _ _ => ?_
  refine .bind (offset_settles _ _) fun next hnext => .ok ?_
  show start + 12 ≤ next
  omega

/-! Whole files. -/

/-- The bound on the number of notes is never reached: each step passes the three words of one. -/
theorem readNotes_settles {file : Array UInt8} {stop bound start : Nat} (hfile : file.size < 2 ^ 63)
    (hstop : stop ≤ file.size) (hpos : 0 < bound) (hbound : stop < start + bound) (d : Described) :
    Settles (readNotes file stop bound start d) fun _ => True := by
  induction bound generalizing start d with
  | zero => exact absurd hpos (Nat.lt_irrefl 0)
  | succ bound ih =>
    refine .bind (offset_settles start 12) fun words hwords => .ite (fun hinside => ?_) fun _ =>
      .ok trivial
    refine .bind (readNote_settles (by omega) hfile) ?_
    rintro ⟨note, next⟩ hnext
    exact .bind (d.note_settles note) fun d _ => ih (by omega) (by simp only at hnext; omega) d

private theorem slice_settles {file : Array UInt8} {start stop : Nat} (h : start ≤ stop)
    (hstop : stop ≤ file.size) : Settles (Refusal.ofBreach (slice file start stop)) fun _ => True :=
  .inl ⟨_, Refusal.ofBreach_eq_ok.mpr (slice_eq (if_pos ⟨h, hstop⟩)), trivial⟩

private theorem byteAt_settles {file : Array UInt8} {i : Nat} (h : i < file.size) :
    Settles (Refusal.ofBreach (byteAt file i)) fun _ => True := by
  refine .inl ⟨file[i], Refusal.ofBreach_eq_ok.mpr ?_, trivial⟩
  rw [byteAt, Array.getElem?_eq_getElem h]

private theorem codeAfter_settles {file : Array UInt8} {notesEnd : Nat} (h : notesEnd ≤ file.size)
    (hfile : file.size < 2 ^ 63) :
    Settles (Refusal.ofBreach (codeAfter file notesEnd)) fun _ => True := by
  have hlimit : alignUp notesEnd codeAlignment < wordLimit := by
    have hle := alignUp_le notesEnd codeAlignment
    have halign : codeAlignment = 16 := rfl
    have hword : wordLimit = 2 ^ 64 := rfl
    omega
  exact .inl ⟨_, Refusal.ofBreach_eq_ok.mpr (codeAfter_eq file.toList hlimit), trivial⟩

theorem readModule_settles (hash : Hash) {file : Array UInt8} (hfile : file.size < 2 ^ 63) :
    Settles (readModule hash file) fun _ => True := by
  refine .ite (fun _ => .malformed _) fun hheader => ?_
  have hsize : 64 ≤ file.size := Nat.le_of_not_lt hheader
  refine .bind (slice_settles (by omega) (by omega)) fun _ _ => .ite (fun _ => .malformed _) fun _ => ?_
  refine .bind (byteAt_settles (by omega)) fun _ _ => .ite (fun _ => .malformed _) fun _ => ?_
  refine .bind (byteAt_settles (by omega)) fun _ _ => .ite (fun _ => .malformed _) fun _ => ?_
  refine .bind (readNat_settles _ _ _) fun _ _ => .ite (fun _ => .malformed _) fun _ => ?_
  refine .bind (readNat_settles _ _ _) fun entry _ => .bind (readNat_settles _ _ _) fun table _ => ?_
  refine .bind (readNat_settles _ _ _) fun _ _ => .ite (fun _ => .malformed _) fun _ => ?_
  refine .bind (readNat_settles _ _ 2) fun count hcount => ?_
  have hlocate : ∀ i ∈ List.range count, ∀ found,
      Settles (locate file table found i) fun _ => True := fun i hi found =>
    locate_settles (Nat.lt_trans (List.mem_range.mp hi) hcount.1) table found
  refine .bind (.foldlM hlocate {}) fun found _ => .bind (.orMalformed _ _) ?_
  rintro ⟨notesAt, notesSize⟩ -
  refine .bind (.orMalformed _ _) fun capacity _ => .ite (fun _ => .malformed _) fun hinside => ?_
  have hnotes : notesAt + notesSize ≤ file.size := by
    rw [not_or] at hinside
    exact Nat.le_of_not_lt hinside.2
  refine .bind (readNotes_settles hfile hnotes (by omega) (by omega) {}) fun d _ => ?_
  refine .bind (.orMalformed _ _) fun name _ => .bind (.orMalformed _ _) fun digest _ => ?_
  refine .bind (codeAfter_settles hnotes hfile) fun code _ => ?_
  exact .ite (fun _ => .malformed _) fun _ => .ok trivial

/-- Whatever the bytes are, inspecting them ends, with what they say or with a defect: no index is out
of range, and no sum, product or rounding overflows. -/
theorem inspect_of_any_bytes (hash : Hash) (bytes : Bytes) (h : bytes.length < 2 ^ 63) :
    (∃ info, inspect hash bytes = .ok info) ∨ ∃ d, inspect hash bytes = malformed d := by
  have hfile : bytes.toArray.size < 2 ^ 63 := h
  rcases readModule_settles hash hfile with ⟨info, hinfo, -⟩ | hdefect
  · exact .inl ⟨info, hinfo⟩
  · exact .inr hdefect

/-- Headers that lead to one note, which claims to be longer than the file. -/
def oversized : Bytes :=
  fileHeader 0 ++ (Geometry.segments ⟨12, 0, 0, 0⟩ 1).flatMap Segment.encode ++
    spell [(4, 2 ^ 32 - 1), (4, 2 ^ 32 - 1), (4, Note.kindName)]

theorem inspect_of_any_bytes_oversized :
    oversized.length < 2 ^ 63 ∧
      ((∃ info, inspect .blake3 oversized = .ok info) ∨
        ∃ d, inspect .blake3 oversized = malformed d) ∧
      inspect .blake3 oversized = malformed .truncatedNote := by
  have h : oversized.length < 2 ^ 63 := by decide +kernel
  exact ⟨h, inspect_of_any_bytes .blake3 oversized h, by decide +kernel⟩

end TapeLang.Module
