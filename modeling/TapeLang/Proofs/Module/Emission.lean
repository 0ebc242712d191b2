import TapeLang.Proofs.FileTree.Installation
import TapeLang.Proofs.Module.Inspection
import TapeLang.Proofs.Native.Targets

/-!
# Emitting modules

Emitting is all or nothing: the module is at its destination and nothing else has changed, or there is
an error and nothing has changed at all. The error tells the first thing that is wrong, in the order
destination, name, code and file system.
-/

namespace TapeLang.Module

open Native

section

variable {p : Program} {env : Environment} {policy : EndOfInput}

/-- Code is generated, or an error is reported. -/
theorem generate_settles (tidy : env.Tidy) (p : Program) (policy : EndOfInput) :
    (∃ code, generate p env policy = .ok code) ∨ ∃ e, generate p env policy = .error (.error e) := by
  by_cases targets : ∀ i ∈ p.instructions.toList, TargetsWithin p.size i
  · obtain ⟨d, hdraft, -, -⟩ := draft_eq tidy targets policy
    rw [generate, hdraft]
    simp only [Bind.bind, Except.bind]
    split
    next e he => exact .inr ⟨_, rfl⟩
    next a ha => exact .inl ⟨_, rfl⟩
  · obtain ⟨index, target, invalid⟩ := exists_firstInvalid targets
    exact .inr ⟨_, generate_invalid tidy invalid policy⟩

private theorem link_of_generate (hash : Hash) {code : MachineCode}
    (h : generate p env policy = .ok code) {name : String} (hname : nameDefect? name = none)
    (capacity : Nat) :
    ∃ image, link hash code name capacity = .ok image := by
  obtain ⟨hentry, hinside⟩ := relocations_of_generate h
  generalize hg : geometry (textBytes name).length code.bytes.length = g
  have hlimit : baseAddress + (g.codeOffset + code.entry) < wordLimit := by
    rw [← hg, hentry, Nat.add_zero]
    exact codeAddress_lt (length_textBytes_lt hname) code.bytes.length
  obtain ⟨bytes, hpatch⟩ := patch_of_inside hinside (UInt64.ofNat g.tapeAddress)
  exact ⟨_, link_eq_pad hash capacity hg.symm hpatch hlimit⟩

end

namespace Emitter

/-- What an error says about the destination, the name and the code: it is about the first of them that
is wrong. -/
def Blames (e : Emitter) (t : FileTree) (p : Program) (name path : String) : EmitError → Prop
  | .invalidDestination path' d => path' = path ∧ destinationDefect? t path = some d
  | .invalidName name' d =>
    name' = name ∧ destinationDefect? t path = none ∧ nameDefect? name = some d
  | .codegen g =>
    destinationDefect? t path = none ∧ nameDefect? name = none ∧
      generate p (SystemCalls.environment e.capacity) e.policy = .error (.error g)
  | .write _ =>
    destinationDefect? t path = none ∧ nameDefect? name = none ∧
      ∃ code, generate p (SystemCalls.environment e.capacity) e.policy = .ok code
  | .malformed _ => False

variable (c : FileTree.Circumstances) (e : Emitter) (hash : Hash) (t : FileTree) (p : Program)
  (name path : String)

theorem build_cases :
    (∃ d, nameDefect? name = some d ∧ e.build hash p name = .error (.error (.invalidName name d))) ∨
      (nameDefect? name = none ∧
        ∃ g, generate p (SystemCalls.environment e.capacity) e.policy = .error (.error g) ∧
          e.build hash p name = .error (.error (.codegen g))) ∨
      (nameDefect? name = none ∧
        ∃ code image, generate p (SystemCalls.environment e.capacity) e.policy = .ok code ∧
          e.build hash p name = .ok image) := by
  cases hname : nameDefect? name with
  | some d => exact .inl ⟨d, rfl, by simp only [build, hname]⟩
  | none =>
    rcases generate_settles (SystemCalls.tidy e.capacity) p e.policy with ⟨code, hcode⟩ | ⟨g, hg⟩
    · obtain ⟨image, himage⟩ := link_of_generate hash hcode hname e.capacity
      exact .inr (.inr ⟨rfl, code, image, hcode, build_of_link hname hcode himage⟩)
    · refine .inr (.inl ⟨rfl, g, hg, ?_⟩)
      simp only [build, hname, hg, Except.mapError, Bind.bind, Except.bind, Refusal.map]

/-- Emitting fails without a trace, or it inserts the image where the path leads. -/
theorem emitUnder_cases :
    (∃ error, e.emitUnder c hash t p name path = (t, .error (.error error)) ∧
        Blames e t p name path error) ∨
      ∃ image target, nameDefect? name = none ∧
        (∃ code, generate p (SystemCalls.environment e.capacity) e.policy = .ok code) ∧
        e.build hash p name = .ok image ∧ destinationDefect? t path = none ∧
        t.renameTarget path = .ok target ∧
        e.emitUnder c hash t p name path = (t.insert target (.file image true), .ok ()) := by
  cases hdestination : destinationDefect? t path with
  | some d =>
    exact .inl ⟨.invalidDestination path d, by simp only [emitUnder, hdestination], rfl,
      hdestination⟩
  | none =>
    rcases build_cases e hash p name with ⟨d, hname, hbuild⟩ | ⟨hname, g, hg, hbuild⟩ |
      ⟨hname, code, image, hcode, hbuild⟩
    · exact .inl ⟨.invalidName name d, by simp only [emitUnder, hdestination, hbuild], rfl,
        hdestination, hname⟩
    · exact .inl ⟨.codegen g, by simp only [emitUnder, hdestination, hbuild], hdestination, hname, hg⟩
    · rcases FileTree.installUnder_cases c t path image with ⟨f, hinstall⟩ |
        ⟨target, htarget, hinstall⟩
      · exact .inl ⟨.write f, by simp only [emitUnder, hdestination, hbuild, hinstall], hdestination,
          hname, code, hcode⟩
      · exact .inr ⟨image, target, hname, ⟨code, hcode⟩, hbuild, rfl, htarget,
          by simp only [emitUnder, hdestination, hbuild, hinstall]⟩

private theorem parentPlace_of_destination (h : destinationDefect? t path = none) :
    ∃ directory, t.parentPlace path = .ok directory := by
  unfold destinationDefect? at h
  split at h
  next => cases h
  next =>
    split at h
    next => cases h
    next =>
      split at h
      next directory hparent => exact ⟨directory, hparent⟩
      next => cases h

/-- All or nothing. Whatever is refused on the way, there is an error, the first that is to be reported,
and the tree is as it was; or the destination is sound, the module is there, an executable file with the
bytes that were built, and the tree is as it was everywhere else. Where nothing is refused, emitting
succeeds exactly if the destination and the name are sound, code can be generated and a file can be moved
to the path. -/
theorem emit_all_or_nothing :
    ((∃ error, e.emitUnder c hash t p name path = (t, .error (.error error)) ∧
        Blames e t p name path error) ∨
      ∃ t' image place, e.emitUnder c hash t p name path = (t', .ok ()) ∧
        destinationDefect? t path = none ∧ e.build hash p name = .ok image ∧
        t'.resolve path = .ok (place, .file image true) ∧
        (∀ other, other ≠ place → t'.lookup other = t.lookup other) ∧ t'.working = t.working) ∧
    ((e.emit hash t p name path).2 = .ok () ↔
      destinationDefect? t path = none ∧ nameDefect? name = none ∧
        (∃ code, generate p (SystemCalls.environment e.capacity) e.policy = .ok code) ∧
        ∃ place, t.renameTarget path = .ok place) := by
  constructor
  · rcases emitUnder_cases c e hash t p name path with failed |
      ⟨image, target, -, -, hbuild, hdestination, htarget, hemit⟩
    · exact .inl failed
    · obtain ⟨directory, last, names, rfl⟩ := FileTree.renameTarget_eq_ok.mp htarget
      exact .inr ⟨_, image, directory ++ [last], hemit, hdestination, hbuild,
        names.resolve_insert image true, fun other hother => FileTree.lookup_insert_of_ne hother, rfl⟩
  · constructor
    · intro succeeded
      rcases emitUnder_cases {} e hash t p name path with ⟨error, hemit, -⟩ |
        ⟨image, target, hname, hcode, -, hdestination, htarget, -⟩
      · rw [emit, hemit] at succeeded
        cases succeeded
      · exact ⟨hdestination, hname, hcode, target, htarget⟩
    · rintro ⟨hdestination, hname, ⟨code, hcode⟩, target, htarget⟩
      obtain ⟨directory, hparent⟩ := parentPlace_of_destination t path hdestination
      rcases build_cases e hash p name with ⟨d, hdefect, -⟩ | ⟨-, g, hg, -⟩ |
        ⟨-, -, image, -, hbuild⟩
      · rw [hname] at hdefect
        cases hdefect
      · rw [hcode] at hg
        cases hg
      · have hinstall : FileTree.installUnder {} t path image = _ :=
          FileTree.install_ok hparent htarget
        simp only [emit, emitUnder, hdestination, hbuild, hinstall]

end Emitter

end TapeLang.Module
