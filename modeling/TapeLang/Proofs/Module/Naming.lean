import TapeLang.Proofs.Module.DamagedFiles
import TapeLang.Proofs.Module.Layout
import TapeLang.Proofs.Native.Targets

/-!
# Names and digests

The name of a module is not part of its code, but it takes up room in front of the code. The tape is on
the first page behind the file, and its address is filled into the code before the digest is taken. So
two names give the same code, and the same digest, exactly if their files take up as many pages.
-/

namespace TapeLang.Module

open Assembly Native

/-- The number of pages a file takes up. -/
def pages (image : Bytes) : Nat :=
  (image.length + 0xFFF) / 0x1000

/-- The code of a built module, which is entered at its first byte. -/
def storedCode (image : Bytes) (info : ModuleInfo) : Bytes :=
  image.drop (info.entry - baseAddress)

private theorem tapeAddress_eq_pages {nameSize codeSize : Nat} {image : Bytes}
    (h : image.length = (geometry nameSize codeSize).fileSize) :
    (geometry nameSize codeSize).tapeAddress = baseAddress + pages image * 0x1000 := by
  have haddress : (geometry nameSize codeSize).tapeAddress =
      (baseAddress + image.length + 0xFFF) / 0x1000 * 0x1000 := by
    rw [h]
    rfl
  have hbase : baseAddress = 0x400000 := rfl
  rw [haddress, pages]
  omega

/-- Code with an open address tells at which address it was placed. -/
theorem patch_injective {code : MachineCode} {address address' : UInt64} {bytes : Bytes} {r : Nat}
    (hr : code.relocations = [r]) (h : code.patch address = .ok { code with bytes })
    (h' : code.patch address' = .ok { code with bytes }) : address = address' := by
  have apart : code.relocations.Pairwise fun r s => r + 8 ≤ s ∨ s + 8 ≤ r := by
    rw [hr]
    exact List.pairwise_singleton ..
  have hmem : r ∈ code.relocations := hr ▸ List.mem_singleton_self r
  have hwindow := (filled_of_patch h).window apart hmem
  rw [(filled_of_patch h').window apart hmem] at hwindow
  have hvalue := congrArg (fun window => UInt64.ofNat (Bytes.toNat window)) hwindow
  simp only [X86.Memory.toNat_ofUInt64] at hvalue
  exact hvalue.symm

section

variable {hash : Hash} {e : Emitter} {p : Program} {name name' : String} {code : MachineCode}

/-- What is known of an image that was built from code. -/
structure BuiltFrom (hash : Hash) (e : Emitter) (p : Program) (name : String) (code : MachineCode)
    (image : Bytes) (info : ModuleInfo) : Prop where
  built : e.build hash p name = .ok image
  inspected : inspect hash image = .ok info
  length : image.length =
    (geometry (textBytes name).length code.bytes.length).codeOffset + code.bytes.length
  digest : info.digest = hash.digest (storedCode image info)
  placed : code.patch (UInt64.ofNat (baseAddress + pages image * 0x1000)) =
    .ok { code with bytes := storedCode image info }
  address_lt : baseAddress + pages image * 0x1000 < wordLimit

theorem exists_builtFrom (hash : Hash) (hname : nameDefect? name = none)
    (hcapacity : e.capacity < wordLimit)
    (hgenerate : generate p (SystemCalls.environment e.capacity) e.policy = .ok code)
    (hcode : code.bytes.length < 2 ^ 63) :
    ∃ image info, BuiltFrom hash e p name code image info := by
  obtain ⟨hentry, hrelocated⟩ := relocations_of_generate hgenerate
  have hsize := length_textBytes_lt hname
  have hlimit : baseAddress +
      ((geometry (textBytes name).length code.bytes.length).codeOffset + code.entry) < wordLimit := by
    rw [hentry, Nat.add_zero]
    exact codeAddress_lt hsize code.bytes.length
  have hlinkable : Linkable code name e.capacity := ⟨hrelocated, hcode, hsize, hcapacity, hlimit⟩
  obtain ⟨header, stored, padding, image, hheader, hstored, rfl, hlink, hpatch, w⟩ :=
    hlinkable.exists_written hash rfl
  have hbuild := Emitter.build_of_link hname hgenerate hlink
  have haddress := tapeAddress_eq_pages w.length_eq
  -- The entry is at the start of the code.
  have hdrop : (header ++ stored).drop (baseAddress +
      ((geometry (textBytes name).length code.bytes.length).codeOffset + code.entry) -
        baseAddress) = stored := by
    rw [Nat.add_sub_cancel_left, hentry, Nat.add_zero, List.drop_left' hheader]
  refine ⟨_, _, hbuild, w.inspect, ?_, ?_, ?_, haddress ▸ tapeAddress_lt hsize hcode⟩
  · rw [List.length_append, hheader, hstored]
  · exact congrArg hash.digest hdrop.symm
  · rw [← haddress, hpatch, storedCode, hdrop]

/-- The same code is stored under two names exactly if the files take up as many pages. -/
theorem BuiltFrom.storedCode_eq_iff {image image' : Bytes} {info info' : ModuleInfo}
    (h : BuiltFrom hash e p name code image info) (h' : BuiltFrom hash e p name' code image' info')
    (hgenerate : generate p (SystemCalls.environment e.capacity) e.policy = .ok code) :
    storedCode image info = storedCode image' info' ↔ pages image = pages image' := by
  have hplaced := h.placed
  have hplaced' := h'.placed
  constructor
  · intro same
    have hholes := (Provided.systemCalls e.capacity).relocations hgenerate
    rw [same] at hplaced
    have haddress := congrArg UInt64.toNat (patch_injective hholes hplaced hplaced')
    rw [UInt64.toNat_ofNat_of_lt' h.address_lt, UInt64.toNat_ofNat_of_lt' h'.address_lt] at haddress
    omega
  · intro same
    rw [same, hplaced'] at hplaced
    obtain ⟨hbytes, -⟩ := MachineCode.mk.inj (Except.ok.inj hplaced)
    exact hbytes.symm

/-- A program that is built under two names has the same code in both images, and so the same digest,
exactly if the images take up the same number of pages. With another number of pages the code differs, and
then equal digests would be a collision. -/
theorem digest_eq_iff_pages (hash : Hash) (hname : nameDefect? name = none)
    (hname' : nameDefect? name' = none) (hcapacity : e.capacity < wordLimit)
    (hgenerate : generate p (SystemCalls.environment e.capacity) e.policy = .ok code)
    (hcode : code.bytes.length < 2 ^ 63) :
    ∃ image image' info info', e.build hash p name = .ok image ∧
      e.build hash p name' = .ok image' ∧
      inspect hash image = .ok info ∧ inspect hash image' = .ok info' ∧
      info.digest = hash.digest (storedCode image info) ∧
      info'.digest = hash.digest (storedCode image' info') ∧
      (storedCode image info = storedCode image' info' ↔ pages image = pages image') ∧
      (pages image = pages image' → info.digest = info'.digest) ∧
      (Separated hash (storedCode image info) (storedCode image' info') →
        info.digest = info'.digest → pages image = pages image') := by
  obtain ⟨image, info, h⟩ := exists_builtFrom hash hname hcapacity hgenerate hcode
  obtain ⟨image', info', h'⟩ := exists_builtFrom hash hname' hcapacity hgenerate hcode
  have hiff := h.storedCode_eq_iff h' hgenerate
  refine ⟨image, image', info, info', h.built, h'.built, h.inspected, h'.inspected, h.digest,
    h'.digest, hiff, fun same => ?_, fun separated same => ?_⟩
  · rw [h.digest, h'.digest, hiff.mpr same]
  · rw [h.digest, h'.digest] at same
    exact hiff.mp (separated same)

end

/-- A module that copies a byte, under a short name and under a longer one. -/
theorem digest_eq_iff_pages_copy :
    nameDefect? "c" = none ∧ nameDefect? "né-copy" = none ∧
      ∃ image image' info info',
        Emitter.build ⟨64, .zero⟩ .blake3 ⟨#[.input, .output]⟩ "c" = .ok image ∧
        Emitter.build ⟨64, .zero⟩ .blake3 ⟨#[.input, .output]⟩ "né-copy" = .ok image' ∧
        inspect .blake3 image = .ok info ∧ inspect .blake3 image' = .ok info' ∧
        (storedCode image info = storedCode image' info' ↔ pages image = pages image') := by
  have hname : nameDefect? "c" = none := by decide +kernel
  have hname' : nameDefect? "né-copy" = none := by decide +kernel
  have small := codeSize_le (p := ⟨#[.input, .output]⟩) (SystemCalls.tidy 64)
    (SystemCalls.compact 64) (by decide) (by decide) .zero
  obtain ⟨code, hgenerate⟩ := generate_ok (SystemCalls.tidy 64) (by decide) small
  have hcode : code.bytes.length < 2 ^ 63 := by
    rw [length_bytes_of_generate (SystemCalls.tidy 64) (by decide) hgenerate]
    exact Nat.lt_of_le_of_lt small (by decide)
  obtain ⟨image, image', info, info', hbuild, hbuild', hread, hread', -, -, hiff, -⟩ :=
    digest_eq_iff_pages .blake3 (e := ⟨64, .zero⟩) hname hname' (by decide) hgenerate hcode
  exact ⟨hname, hname', image, image', info, info', hbuild, hbuild', hread, hread', hiff⟩

/-! A program whose size lies between two numbers of pages. -/

/-- A program of additions. -/
def additions (n : Nat) : Program :=
  ⟨Array.replicate n (.add 1)⟩

private theorem toList_additions (n : Nat) :
    (additions n).instructions.toList = List.replicate n (.add 1) :=
  Array.toList_replicate

private theorem targets_additions (n : Nat) :
    ∀ i ∈ (additions n).instructions.toList, TargetsWithin (additions n).size i := by
  intro i hi
  rw [toList_additions] at hi
  rw [List.eq_of_mem_replicate hi]
  trivial

private theorem sizes_fragments_additions (f : Frame) (n : Nat) (s : Site) :
    sizes (f.fragments (f.placed s (List.replicate n (.add 1)))) = 5 * n := by
  induction n generalizing s with
  | zero => rfl
  | succ n ih =>
    have hpiece : sizes (f.piece ⟨s, .add 1⟩).1 = 5 := rfl
    have hrest := ih (f.following ⟨s, .add 1⟩)
    rw [List.replicate_succ, Frame.placed, Frame.fragments, List.flatMap_cons, List.cons_append,
      sizes_cons, sizes_append, size_bind, hpiece]
    rw [Frame.fragments] at hrest
    omega

private theorem stubs_additions (f : Frame) (n : Nat) (s : Site) :
    (f.placed s (List.replicate n (.add 1))).filterMap Frame.stub? = [] := by
  induction n generalizing s with
  | zero => rfl
  | succ n ih =>
    rw [List.replicate_succ, Frame.placed, List.filterMap_cons_none rfl]
    exact ih _

/-- Additions take five bytes each, and what is around them 67. -/
theorem codeSize_additions (n : Nat) :
    codeSize (additions n) (SystemCalls.environment 64) .zero = 67 + 5 * n := by
  rw [codeSize_eq (SystemCalls.tidy 64) (targets_additions n), toList_additions]
  generalize hf : Frame.of (additions n) (SystemCalls.environment 64) .zero = f
  have henvironment : f.environment = SystemCalls.environment 64 := by rw [← hf, Frame.of]
  have hprologue : sizes (expansion [] 0 (SystemCalls.environment 64).prologue).1 = 30 := rfl
  have hepilogue : ∀ s, sizes (f.leaving s).1 = 32 := by
    intro s
    rw [Frame.leaving, henvironment]
    have hook := (SystemCalls.tidy 64).epilogue f.ok f.bounds f.io { s with index := f.size }
    exact sizes_of_expand (hook.expand s.next).1
  have hstubs : f.stubs (List.replicate n (.add 1)) = [] := stubs_additions ..
  have hfragments := sizes_fragments_additions f n f.start
  simp only [Frame.layout, Frame.tail, Frame.ending, henvironment, hstubs, Frame.stubCode,
    List.drop_zero, sizes_append, sizes_cons, size_bind, hprologue, hepilogue, hfragments,
    List.nil_append, Loaded.size_jump]
  omega

/-- The longest name of one letter. -/
def longName : String :=
  String.ofList (List.replicate 255 'a')

private theorem nameDefect_longName : nameDefect? longName = none := by
  have hlist : longName.toList = List.replicate 255 'a' := String.toList_ofList
  have hsize : longName.utf8ByteSize = 255 := by decide +kernel
  have hempty : longName.isEmpty = false := by decide +kernel
  simp only [nameDefect?, hlist, hsize, hempty]
  decide +kernel

/-- Seven hundred additions under the shortest name take up one page, under a long one two. The code that
is stored differs, and so do the digests unless they collide. -/
theorem digest_depends_on_name :
    nameDefect? "a" = none ∧ nameDefect? longName = none ∧
      ∃ image image' info info',
        Emitter.build ⟨64, .zero⟩ .blake3 (additions 700) "a" = .ok image ∧
        Emitter.build ⟨64, .zero⟩ .blake3 (additions 700) longName = .ok image' ∧
        inspect .blake3 image = .ok info ∧ inspect .blake3 image' = .ok info' ∧
        pages image = 1 ∧ pages image' = 2 ∧
        storedCode image info ≠ storedCode image' info' ∧
        (Separated .blake3 (storedCode image info) (storedCode image' info') →
          info.digest ≠ info'.digest) := by
  have hname : nameDefect? "a" = none := by decide +kernel
  have hname' := nameDefect_longName
  have hshort : (textBytes "a").length = 1 := by decide +kernel
  have hlong : (textBytes longName).length = 255 := by decide +kernel
  have hsize : codeSize (additions 700) (SystemCalls.environment 64) .zero = 3567 :=
    codeSize_additions 700
  have targets := targets_additions 700
  obtain ⟨code, hgenerate⟩ := generate_ok (SystemCalls.tidy 64) targets (by rw [hsize]; decide)
  have hcode : code.bytes.length = 3567 :=
    (length_bytes_of_generate (SystemCalls.tidy 64) targets hgenerate).trans hsize
  have hsmall : code.bytes.length < 2 ^ 63 := by
    rw [hcode]
    decide
  obtain ⟨image, info, h⟩ :=
    exists_builtFrom .blake3 (e := ⟨64, .zero⟩) hname (by decide) hgenerate hsmall
  obtain ⟨image', info', h'⟩ :=
    exists_builtFrom .blake3 (e := ⟨64, .zero⟩) hname' (by decide) hgenerate hsmall
  have hpages : pages image = 1 := by
    rw [pages, h.length, hshort, hcode]
    decide
  have hpages' : pages image' = 2 := by
    rw [pages, h'.length, hlong, hcode]
    decide
  have hdiffer : storedCode image info ≠ storedCode image' info' := by
    intro same
    have hequal := (h.storedCode_eq_iff h' hgenerate).mp same
    omega
  refine ⟨hname, hname', image, image', info, info', h.built, h'.built, h.inspected, h'.inspected,
    hpages, hpages', hdiffer, fun separated same => hdiffer ?_⟩
  rw [h.digest, h'.digest] at same
  exact separated same

end TapeLang.Module
