import TapeLang.Proofs.Interpreter.Steps
import TapeLang.Proofs.Native.CodeSize
import TapeLang.Proofs.Native.Targets
import TapeLang.Proofs.Program.Pairs

/-!
# Matched loops

The check of a program's loops goes through the opens once and marks the closes they take. It answers the
question whether there is a matching at all: a bijection between the opens and the closes along which both
ends point just behind each other. Then no target leaves the program, so neither does the cursor of a run,
and code generation has no target to complain about.
-/

namespace TapeLang

namespace Program

variable {p : Program}

/-- The indices of the opens. -/
def OpenIndex (p : Program) : Type :=
  { i : Nat // ∃ target, p.get? i = some (.loopOpen target) }

/-- The indices of the closes. -/
def CloseIndex (p : Program) : Type :=
  { j : Nat // ∃ target, p.get? j = some (.loopClose target) }

/-- Every open has a close of its own and every close an open, and they point just behind each other. -/
structure Matching (p : Program) (m : p.OpenIndex → p.CloseIndex) : Prop where
  bijective : Function.Bijective m
  pair : ∀ i, p.Pair i.1 (m i).1

/-- The partners are a matching. -/
theorem Paired.exists_matching (h : p.Paired) : ∃ m, p.Matching m := by
  have hpartner : ∀ i : p.OpenIndex, ∃ j : p.CloseIndex, p.Pair i.1 j.1 := by
    rintro ⟨i, target, hi⟩
    obtain ⟨j, -, pair⟩ := h.opens i target hi
    exact ⟨⟨j, i + 1, pair.closes⟩, pair⟩
  choose m hm using hpartner
  refine ⟨m, ⟨?_, ?_⟩, hm⟩
  · intro i k same
    apply Subtype.ext
    apply (hm i).open_unique
    rw [same]
    exact hm k
  · rintro ⟨j, target, hj⟩
    obtain ⟨i, -, pair⟩ := h.closes j target hj
    refine ⟨⟨i, j + 1, pair.opens⟩, ?_⟩
    apply Subtype.ext
    exact (hm _).close_unique pair

/-- A matching leaves no open and no close without a partner. -/
theorem Matching.paired {m : p.OpenIndex → p.CloseIndex} (h : p.Matching m) : p.Paired where
  opens i target hi := by
    have pair := h.pair ⟨i, target, hi⟩
    refine ⟨_, ?_, pair⟩
    simpa using hi.symm.trans pair.opens
  closes j target hj := by
    obtain ⟨i, hi⟩ := h.bijective.surjective ⟨j, target, hj⟩
    have pair := h.pair i
    rw [hi] at pair
    refine ⟨i.1, ?_, pair⟩
    simpa using hj.symm.trans pair.closes

theorem paired_iff_exists_matching : p.Paired ↔ ∃ m, p.Matching m :=
  ⟨Paired.exists_matching, fun ⟨_, h⟩ => h.paired⟩

theorem Paired.target_le (h : p.Paired) {k target : Nat} {i : Instruction} (hi : p.get? k = some i)
    (htarget : i.target? = some target) : target ≤ p.size := by
  have hmem : i ∈ p.instructions.toList :=
    List.mem_of_getElem? (Array.getElem?_toList.trans hi)
  exact Native.targetsWithin_iff.mp (Native.targetsWithin_of_paired h i hmem) target htarget

end Program

/-! Where the cursor goes. -/

namespace Interpreter

variable {p : Program} {policy : EndOfInput} {s t : State} {e : Ending}

private theorem cursor_readCell (policy : EndOfInput) (s : State) :
    (readCell policy s).state.cursor = s.cursor ∨ (readCell policy s).state.cursor = s.cursor + 1 := by
  obtain ⟨tape, cursor, input, output⟩ := s
  simp only [readCell]
  split
  next => exact .inl rfl
  next =>
    split
    next => exact .inr rfl
    next => split <;> simp [Step.state]

private theorem cursor_writeCell (s : State) :
    (writeCell s).state.cursor = s.cursor ∨ (writeCell s).state.cursor = s.cursor + 1 := by
  obtain ⟨tape, cursor, input, output⟩ := s
  simp only [writeCell]
  split
  next => exact .inl rfl
  next => split <;> simp [Step.state]

private theorem cursor_jumpIf (test : UInt8 → Bool) (target : Nat) (s : State) :
    (jumpIf test target s).state.cursor = s.cursor ∨
      (jumpIf test target s).state.cursor = s.cursor + 1 ∨
      (jumpIf test target s).state.cursor = target := by
  obtain ⟨tape, cursor, input, output⟩ := s
  simp only [jumpIf]
  split
  next => exact .inl rfl
  next b _ => cases htest : test b <;> simp [Step.state]

/-- An instruction stays, goes one further, or goes to its target. -/
theorem cursor_execute (policy : EndOfInput) (i : Instruction) (s : State) :
    (execute policy i s).state.cursor = s.cursor ∨
      (execute policy i s).state.cursor = s.cursor + 1 ∨
      i.target? = some (execute policy i s).state.cursor := by
  cases i with
  | move d =>
    simp only [execute]
    split <;> simp [Step.state]
  | add d =>
    simp only [execute]
    split <;> simp [Step.state]
  | input => exact (cursor_readCell policy s).imp_right .inl
  | output => exact (cursor_writeCell s).imp_right .inl
  | loopOpen target =>
    exact (cursor_jumpIf _ target s).imp_right (.imp_right fun h => congrArg some h.symm)
  | loopClose target =>
    exact (cursor_jumpIf _ target s).imp_right (.imp_right fun h => congrArg some h.symm)

/-- A step does not leave the program by more than its end. -/
theorem cursor_step_le (paired : p.Paired) (policy : EndOfInput) (h : s.cursor ≤ p.size) :
    (step p policy s).state.cursor ≤ p.size := by
  unfold step
  split
  next => exact h
  next i hi =>
    have inside : s.cursor < p.size := (Array.getElem?_eq_some_iff.mp hi).1
    rcases cursor_execute policy i s with stays | further | jumps
    · omega
    · omega
    · exact paired.target_le hi jumps

theorem cursor_le_of_reaches (paired : p.Paired) {n : Nat}
    (h : Transition.Reaches (advance? p policy) n s t) (hs : s.cursor ≤ p.size) :
    t.cursor ≤ p.size := by
  apply h.preserves (P := fun s => s.cursor ≤ p.size) _ hs
  intro s t hs next
  have hstep := cursor_step_le paired policy hs
  rw [advance?_eq_some.mp next] at hstep
  exact hstep

theorem cursor_le_of_runFrom (paired : p.Paired) {fuel : Nat}
    (h : runFrom p policy fuel s = some (e, t)) (hs : s.cursor ≤ p.size) : t.cursor ≤ p.size := by
  obtain ⟨n, u, reaches, stopped⟩ := runFrom_eq_some_iff.mp ⟨fuel, h⟩
  have hstep := cursor_step_le paired policy (cursor_le_of_reaches paired reaches hs)
  rw [stopped] at hstep
  exact hstep

end Interpreter

/-! No bad target. -/

namespace Native

/-- A part of code generation that does not complain about a target. -/
def Uncomplaining {α : Type} (x : Except (Refusal CodegenError) α) : Prop :=
  ∀ index target, x ≠ .error (.error (.invalidTarget index target))

namespace Uncomplaining

variable {α β : Type}

theorem ok (a : α) : Uncomplaining (.ok a) :=
  nofun

theorem ofBreach (x : Except Breach α) : Uncomplaining (Refusal.ofBreach x) := by
  cases x <;> exact nofun

theorem bind {x : Except (Refusal CodegenError) α} {f : α → Except (Refusal CodegenError) β}
    (h : Uncomplaining x) (hnext : ∀ a, Uncomplaining (f a)) : Uncomplaining (x >>= f) := by
  cases x with
  | error r =>
    intro index target complaint
    exact h index target (congrArg Except.error (Except.error.inj complaint))
  | ok a => exact hnext a

theorem foldlM {f : β → α → Except (Refusal CodegenError) β} {as : List α}
    (h : ∀ a ∈ as, ∀ b, Uncomplaining (f b a)) (b : β) : Uncomplaining (as.foldlM f b) := by
  induction as generalizing b with
  | nil => exact .ok b
  | cons a rest ih =>
    rw [List.foldlM_cons]
    apply bind (h a List.mem_cons_self b)
    exact ih fun a ha => h a (List.mem_cons_of_mem _ ha)

end Uncomplaining

private theorem loopFragment_uncomplaining {f : Frame} {target : Nat} (h : target ≤ f.size) (s : Site)
    (c : X86.Cond) : Uncomplaining (loopFragment f s c target) := by
  rw [loopFragment, if_pos h]
  exact .ok _

private theorem fragment_uncomplaining {f : Frame} {i : Instruction}
    (h : ∀ target, i.target? = some target → target ≤ f.size) (s : Site) :
    Uncomplaining (fragment f s i) := by
  cases i with
  | move d => exact .ok _
  | add d => exact .ok _
  | input => exact .bind (.ofBreach _) fun _ => .ok _
  | output => exact .ofBreach _
  | loopOpen target => exact loopFragment_uncomplaining (h target rfl) s _
  | loopClose target => exact loopFragment_uncomplaining (h target rfl) s _

theorem draft_uncomplaining {p : Program} (paired : p.Paired) (env : Environment)
    (policy : EndOfInput) : Uncomplaining (draft p env policy) := by
  apply Uncomplaining.bind (.ofBreach _)
  rintro ⟨prologue, first⟩
  apply Uncomplaining.bind
  · apply Uncomplaining.foldlM
    rintro ⟨i, index⟩ hi d
    refine .bind (fragment_uncomplaining ?_ _) fun _ => .ok _
    intro target htarget
    have hget : p.get? index = some i :=
      Array.getElem?_toList.symm.trans (List.mk_mem_zipIdx_iff_getElem?.mp hi)
    exact paired.target_le hget htarget
  · intro d
    apply Uncomplaining.bind
    · apply Uncomplaining.foldlM
      exact fun stub _ d => .bind (.ofBreach _) fun _ => .ok _
    · exact fun d => .bind (.bind (.ofBreach _) fun _ => .ok _) fun _ => .ok _

/-- What assembling complains about is never a target of the program. -/
theorem generate_uncomplaining {p : Program} (paired : p.Paired) (env : Environment)
    (policy : EndOfInput) : Uncomplaining (generate p env policy) := by
  apply Uncomplaining.bind (draft_uncomplaining paired env policy)
  rintro ⟨f, d⟩
  dsimp only
  split
  next e _ => cases e <;> exact nofun
  next => exact .ok _

end Native

namespace Program

open Interpreter Native

/-- The check of a program's loops. It has an answer for every program, as no index it looks up is outside,
and the answer is whether the opens and the closes can be matched. Runs of a program whose loops are matched
stay on its instructions or right behind them, and code generation finds no bad target in it. -/
theorem isWellFormed_iff_matched (p : Program) :
    p.checkLoops = .ok p.isWellFormed ∧
    (p.isWellFormed = true ↔ ∃ m, p.Matching m) ∧
    (p.isWellFormed = true → ∀ policy,
      (∀ tape input output n s,
        Transition.Reaches (advance? p policy) n ⟨tape, 0, input, output⟩ s → s.cursor ≤ p.size) ∧
      (∀ tape input output fuel e s,
        run fuel p policy tape input output = some (e, s) → s.cursor ≤ p.size) ∧
      ∀ env index target, generate p env policy ≠ .error (.error (.invalidTarget index target))) := by
  refine ⟨checkLoops_eq p, isWellFormed_iff_paired.trans paired_iff_exists_matching,
    fun wellFormed policy => ?_⟩
  have paired := isWellFormed_iff_paired.mp wellFormed
  refine ⟨fun tape input output n s reaches => ?_, fun tape input output fuel e s ended => ?_,
    fun env => generate_uncomplaining paired env policy⟩
  · exact cursor_le_of_reaches paired reaches (Nat.zero_le _)
  · exact cursor_le_of_runFrom paired ended (Nat.zero_le _)

/-- Two loops that cross. -/
def crossed : Program :=
  ⟨#[.loopOpen 3, .loopOpen 4, .loopClose 1, .loopClose 2]⟩

/-- Loops that cross are matched all the same. -/
theorem isWellFormed_iff_matched_crossed :
    crossed.isWellFormed = true ∧
      (∃ m, crossed.Matching m) ∧
      (∀ tape input output fuel e s,
        run fuel crossed .zero tape input output = some (e, s) → s.cursor ≤ 4) ∧
      ∀ env index target,
        generate crossed env .zero ≠ .error (.error (.invalidTarget index target)) := by
  have wellFormed : crossed.isWellFormed = true := by decide
  obtain ⟨-, matched, safe⟩ := isWellFormed_iff_matched crossed
  obtain ⟨-, ends, generates⟩ := safe wellFormed .zero
  exact ⟨wellFormed, matched.mp wellFormed, ends, generates⟩

-- The largest word as a target, and a close that two opens point at.
example : isWellFormed ⟨#[.loopOpen 0xFFFFFFFFFFFFFFFF, .loopClose 1]⟩ = false := by decide

example : isWellFormed ⟨#[.loopOpen 3, .loopOpen 3, .loopClose 1]⟩ = false := by decide

end Program

end TapeLang
