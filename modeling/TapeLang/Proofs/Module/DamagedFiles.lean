import TapeLang.Proofs.Module.ArbitraryFiles

/-!
# Damaged files

A module file that lost its end, or whose code was changed, is refused. A cut in front of the end of the
notes leaves the notes outside the file. Any later cut, and any change of the code, leaves headers and
notes alone, so that only the digest decides, and it is the digest of another byte string.
-/

namespace TapeLang.Module

open Native

theorem orMalformed_eq_ok {α : Type} {d : Defect} {o : Option α} {a : α} :
    orMalformed d o = .ok a ↔ o = some a := by
  cases o with
  | none => exact ⟨nofun, nofun⟩
  | some b => simp [orMalformed]

/-- What the reader found in a file that it accepted. -/
structure Passed (hash : Hash) (file : Array UInt8) (info : ModuleInfo)
    (table count notesAt notesSize : Nat) : Prop where
  magic : slice file 0 4 = .ok [0x7F, 0x45, 0x4C, 0x46]
  width : byteAt file 4 = .ok 2
  order : byteAt file 5 = .ok 1
  machine : readNat file 18 2 = .ok machineX86
  entry : readNat file 24 8 = .ok info.entry
  readTable : readNat file 32 8 = .ok table
  headerSize : readNat file 54 2 = .ok programHeaderSize
  readCount : readNat file 56 2 = .ok count
  located : (List.range count).foldlM (locate file table) {} =
    .ok ⟨some (notesAt, notesSize), some info.tapeCapacity⟩
  inside : notesAt + notesSize ≤ file.size
  described : readNotes file (notesAt + notesSize) (file.size + 1) notesAt {} =
    .ok ⟨some info.name, some info.digest⟩
  code : ∃ code, codeAfter file (notesAt + notesSize) = .ok code ∧ hash.digest code = info.digest

theorem inspect_eq_ok {hash : Hash} {bytes : Bytes} {info : ModuleInfo}
    (h : inspect hash bytes = .ok info) :
    ∃ table count notesAt notesSize, Passed hash bytes.toArray info table count notesAt notesSize := by
  unfold inspect readModule at h
  -- Every check was passed, or nothing was accepted.
  split at h
  next => cases h
  obtain ⟨magic, hmagic, h⟩ := Except.bind_eq_ok.mp h
  split at h
  next => cases h
  next magic_eq =>
  obtain ⟨width, hwidth, h⟩ := Except.bind_eq_ok.mp h
  split at h
  next => cases h
  next width_eq =>
  obtain ⟨order, horder, h⟩ := Except.bind_eq_ok.mp h
  split at h
  next => cases h
  next order_eq =>
  obtain ⟨machine, hmachine, h⟩ := Except.bind_eq_ok.mp h
  split at h
  next => cases h
  next machine_eq =>
  obtain ⟨entry, hentry, h⟩ := Except.bind_eq_ok.mp h
  obtain ⟨table, htable, h⟩ := Except.bind_eq_ok.mp h
  obtain ⟨headerSize, hheaderSize, h⟩ := Except.bind_eq_ok.mp h
  split at h
  next => cases h
  next headerSize_eq =>
  obtain ⟨count, hcount, h⟩ := Except.bind_eq_ok.mp h
  obtain ⟨⟨notes, capacity⟩, hfound, h⟩ := Except.bind_eq_ok.mp h
  obtain ⟨⟨notesAt, notesSize⟩, hnotes, h⟩ := Except.bind_eq_ok.mp h
  obtain ⟨capacity, hcapacity, h⟩ := Except.bind_eq_ok.mp h
  dsimp only at h
  split at h
  next => cases h
  next hinside =>
  obtain ⟨⟨name, digest⟩, hdescribed, h⟩ := Except.bind_eq_ok.mp h
  obtain ⟨name, hname, h⟩ := Except.bind_eq_ok.mp h
  obtain ⟨digest, hdigest, h⟩ := Except.bind_eq_ok.mp h
  obtain ⟨code, hcode, h⟩ := Except.bind_eq_ok.mp h
  split at h
  next => cases h
  next digest_eq =>
  obtain rfl := Except.ok.inj h
  obtain rfl := orMalformed_eq_ok.mp hnotes
  obtain rfl := orMalformed_eq_ok.mp hcapacity
  obtain rfl := orMalformed_eq_ok.mp hname
  obtain rfl := orMalformed_eq_ok.mp hdigest
  rw [not_not] at magic_eq width_eq order_eq machine_eq headerSize_eq digest_eq
  subst magic_eq width_eq order_eq machine_eq headerSize_eq
  rw [not_or] at hinside
  exact ⟨table, count, notesAt, notesSize, Refusal.ofBreach_eq_ok.mp hmagic,
    Refusal.ofBreach_eq_ok.mp hwidth, Refusal.ofBreach_eq_ok.mp horder, hmachine, hentry, htable,
    hheaderSize, hcount, hfound, Nat.le_of_not_lt hinside.2, hdescribed, code,
    Refusal.ofBreach_eq_ok.mp hcode, digest_eq⟩

namespace Headed

variable {g : Geometry} {entry capacity : Nat} {name : String} {digest front : Bytes}

/-- Headers and notes that are not all there are refused. -/
theorem inspect_take (h : Headed g entry capacity name digest front) (hash : Hash) {n : Nat}
    (hn : n < front.length) : ∃ d, Module.inspect hash (front.take n) = malformed d := by
  have hlength : (front.take n).length = n := List.length_take_of_le (Nat.le_of_lt hn)
  have hsmall : (front.take n).toArray.size < 2 ^ 63 := by
    have hlt := h.length_lt
    rw [List.size_toArray, hlength]
    omega
  rcases readModule_settles hash hsmall with ⟨info, hinfo, -⟩ | hdefect
  · obtain ⟨table, count, notesAt, notesSize, passed⟩ := inspect_eq_ok hinfo
    -- The whole front says the same, and there the notes end where the front ends.
    obtain ⟨-, -, -, -, -, htable', -, hcount'⟩ := h.readHeader []
    have hlocate := h.foldlM_locate []
    rw [List.append_nil] at htable' hcount' hlocate
    have hwhole := readNat_extends (front.take n) (front.drop n) _ passed.readTable
    have hwhole' := readNat_extends (front.take n) (front.drop n) _ passed.readCount
    have hfound' :=
      Extends.foldlM (locate_extends (front.take n) (front.drop n) table) _ _ _ passed.located
    rw [List.take_append_drop] at hwhole hwhole' hfound'
    obtain rfl := Except.ok.inj (hwhole.symm.trans htable')
    obtain rfl := Except.ok.inj (hwhole'.symm.trans hcount')
    obtain ⟨hnotes, -⟩ := Located.mk.inj (Except.ok.inj (hfound'.symm.trans hlocate))
    obtain ⟨rfl, rfl⟩ := Prod.mk.inj (Option.some.inj hnotes)
    have hinside := passed.inside
    rw [List.size_toArray, hlength, ← h.length_eq] at hinside
    exact absurd hinside (Nat.not_le_of_gt hn)
  · exact hdefect

end Headed

/-- Two byte strings do not collide: with the same digest they are the same. -/
def Separated (hash : Hash) (a b : Bytes) : Prop :=
  hash.digest a = hash.digest b → a = b

namespace Written

variable {hash : Hash} {g : Geometry} {entry capacity : Nat} {name : String}
  {padding code image : Bytes}

/-- Any other code behind the same headers and notes is refused. -/
theorem inspect_replaced (w : Written hash g entry capacity name padding code image) {other : Bytes}
    (hother : other ≠ code) (hseparated : Separated hash other code) :
    Module.inspect hash (image.take g.codeOffset ++ other) = malformed .digestMismatch := by
  have hdigest : hash.digest other ≠ hash.digest code := fun same => hother (hseparated same)
  rw [w.parts, List.take_left' w.offset, List.append_assoc, w.headed.inspect, w.length_padding,
    List.drop_left, if_neg hdigest]

/-- A file that lost its end is refused. -/
theorem inspect_take (w : Written hash g entry capacity name padding code image) (hcode : code ≠ [])
    {n : Nat} (hn : n < image.length)
    (hseparated : Separated hash (code.take (n - g.codeOffset)) code) :
    ∃ d, Module.inspect hash (image.take n) = malformed d := by
  have hparts := w.parts
  have hoffset := w.offset
  have hpadding := w.length_padding
  have h := w.headed
  generalize g.front entry capacity (textBytes name) (hash.digest code) = front at *
  rcases Nat.lt_or_ge n front.length with hcut | hcut
  · rw [hparts, List.append_assoc, List.take_append_of_le_length (Nat.le_of_lt hcut)]
    exact h.inspect_take hash hcut
  · -- What is left of the code is shorter than the code.
    have hlength : image.length = g.codeOffset + code.length := by
      rw [hparts, List.length_append, hoffset]
    have hpos : 0 < code.length := List.length_pos_iff.mpr hcode
    have hshort : code.take (n - g.codeOffset) ≠ code := by
      intro same
      have hle := List.length_take_le (n - g.codeOffset) code
      rw [same] at hle
      omega
    have hdigest : hash.digest (code.take (n - g.codeOffset)) ≠ hash.digest code :=
      fun same => hshort (hseparated same)
    have htake : image.take n = front ++ (padding ++ code).take (n - front.length) := by
      rw [hparts, List.append_assoc, List.take_append, List.take_of_length_le hcut]
    have hdrop : ((padding ++ code).take (n - front.length)).drop padding.length =
        code.take (n - g.codeOffset) := by
      rw [List.drop_take, List.drop_left, ← hpadding]
      congr 1
      have hle := h.length_le
      omega
    refine ⟨.digestMismatch, ?_⟩
    rw [htake, h.inspect, hpadding, hdrop, if_neg hdigest]

end Written

/-- Damage is found. A module file that lost its end is refused, wherever it was cut; and so is one with
other code than it was linked with, by its digest. Only the digests of the two byte strings compared
must not collide. -/
theorem inspect_damaged (hash : Hash) {code : MachineCode} {name : String} {capacity : Nat}
    (h : Linkable code name capacity) (hcode : code.bytes ≠ []) :
    ∃ header stored, link hash code name capacity = .ok (header ++ stored) ∧
      header.length = (geometry (textBytes name).length code.bytes.length).codeOffset ∧
      code.patch (UInt64.ofNat
        (geometry (textBytes name).length code.bytes.length).tapeAddress) =
          .ok { code with bytes := stored } ∧
      (∀ n < (header ++ stored).length, Separated hash (stored.take (n - header.length)) stored →
        ∃ d, inspect hash ((header ++ stored).take n) = malformed d) ∧
      ∀ other, other ≠ stored → Separated hash other stored →
        inspect hash (header ++ other) = malformed .digestMismatch := by
  obtain ⟨header, stored, padding, image, hheader, hsize, rfl, hlink, hpatch, w⟩ :=
    h.exists_written hash rfl
  have hstored : stored ≠ [] := by
    rintro rfl
    exact hcode (List.eq_nil_of_length_eq_zero hsize.symm)
  refine ⟨header, stored, hlink, hheader, hpatch, ?_, ?_⟩
  · intro n hn hseparated
    rw [hheader] at hseparated
    exact w.inspect_take hstored hn hseparated
  · intro other hother hseparated
    have hreplaced := w.inspect_replaced hother hseparated
    rwa [List.take_left' hheader] at hreplaced

/-- Two bytes of code, cut anywhere, emptied, shortened, edited and made longer. -/
theorem inspect_damaged_loop :
    Linkable ⟨[0xEB, 0xFE], 0, [], []⟩ "spin" 1 ∧
      ∃ header, link .blake3 ⟨[0xEB, 0xFE], 0, [], []⟩ "spin" 1 = .ok (header ++ [0xEB, 0xFE]) ∧
        (∀ n < (header ++ [0xEB, 0xFE]).length,
          ∃ d, inspect .blake3 ((header ++ [0xEB, 0xFE]).take n) = malformed d) ∧
        ∀ other ∈ [[], [0xEB], [0xEB, 0xFD], [0xEB, 0xFE, 0]],
          inspect .blake3 (header ++ other) = malformed .digestMismatch := by
  have h : Linkable ⟨[0xEB, 0xFE], 0, [], []⟩ "spin" 1 :=
    ⟨by decide, by decide, by decide +kernel, by decide, by decide +kernel⟩
  have hdigests : ∀ other ∈ ([[], [0xEB], [0xEB, 0xFD], [0xEB, 0xFE, 0]] : List Bytes),
      Digest.blake3 other ≠ Digest.blake3 [0xEB, 0xFE] := by
    decide +kernel
  obtain ⟨header, stored, hlink, hheader, hpatch, hcut, hreplaced⟩ :=
    inspect_damaged .blake3 h (by decide)
  obtain rfl : [0xEB, 0xFE] = stored := congrArg MachineCode.bytes (Except.ok.inj hpatch)
  refine ⟨h, header, hlink, ?_, ?_⟩
  · intro n hn
    refine hcut n hn fun same => absurd same (hdigests _ ?_)
    rw [List.length_append] at hn
    have hlt : n - header.length < 2 := by
      change n < header.length + 2 at hn
      omega
    obtain hzero | hone : n - header.length = 0 ∨ n - header.length = 1 := by omega
    · rw [hzero]
      decide
    · rw [hone]
      decide
  · intro other hother
    refine hreplaced other ?_ fun same => absurd same (hdigests other hother)
    rintro rfl
    exact hdigests _ hother rfl

end TapeLang.Module
