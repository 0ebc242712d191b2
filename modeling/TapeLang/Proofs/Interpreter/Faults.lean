import TapeLang.Proofs.Channel.History
import TapeLang.Proofs.Interpreter.Steps

/-!
# Faults of the interpreter

Whatever a program jumps to and whatever the channels deliver, the pointer stays on the tape, so every
step has a cell to work on. A run that ends says why: its fault is the move that would have left the
tape, or the first failure of a channel.
-/

namespace TapeLang

open Delivery Transition

namespace Action

variable {policy : EndOfInput} {index : Nat} {w w' : World} {stop : Option Fault}

/-- How the calls of an action ended. -/
def Called (tape : Tape) (calls : List Delivery) (w' : World) : Option Fault → Prop
  | none => Smooth calls
  | some (.outOfTape ..) => False
  | some (.channel f) => BrokenBy f calls ∧ w'.tape = tape

private theorem called_input (hp : perform policy index .input w = (stop, w')) :
    ∃ calls, History w.input w.output calls w'.input w'.output ∧ Called w.tape calls w' stop := by
  obtain ⟨calls, hcalls, hended⟩ := History.of_readByte w.input w.output
  simp only [perform] at hp
  split at hp
  next b? left hread =>
    obtain ⟨rfl, rfl⟩ := Prod.mk.inj hp
    rw [hread] at hcalls hended
    exact ⟨calls, hcalls, hended⟩
  next f left hread =>
    obtain ⟨rfl, rfl⟩ := Prod.mk.inj hp
    rw [hread] at hcalls hended
    exact ⟨calls, hcalls, hended, rfl⟩

private theorem called_output (hp : perform policy index .output w = (stop, w')) :
    ∃ calls, History w.input w.output calls w'.input w'.output ∧ Called w.tape calls w' stop := by
  obtain ⟨calls, hcalls, hended⟩ := History.of_writeByte w.input w.output (w.tape.get?.getD 0)
  simp only [perform] at hp
  split at hp
  next left hwrite =>
    obtain ⟨rfl, rfl⟩ := Prod.mk.inj hp
    rw [hwrite] at hcalls hended
    exact ⟨calls, hcalls, hended⟩
  next f left hwrite =>
    obtain ⟨rfl, rfl⟩ := Prod.mk.inj hp
    rw [hwrite] at hcalls hended
    exact ⟨calls, hcalls, hended, rfl⟩

end Action

namespace Interpreter

variable {p : Program} {policy : EndOfInput} {s t : State} {e : Ending}

/-- What a step from `s` can do. -/
inductive Result (p : Program) (s : State) : Step → Prop where
  | finished (past : p.get? s.cursor = none) : Result p s (.stop .finished s)
  | goes {i : Instruction} {t : State} {calls : List Delivery} (instruction : p.get? s.cursor = some i)
      (lands : t.cursor = s.cursor + 1 ∨ i.target? = some t.cursor) (onCell : t.tape.OnCell)
      (capacity : t.tape.capacity = s.tape.capacity)
      (history : History s.input s.output calls t.input t.output) (smooth : Smooth calls) :
      Result p s (.next t)
  | refused {d : Int8} (instruction : p.get? s.cursor = some (.move d))
      (outside : ¬ (0 ≤ s.tape.pointer + d.toInt ∧ s.tape.pointer + d.toInt < s.tape.capacity)) :
      Result p s (.stop (.faulted (.outOfTape s.cursor s.tape.pointer)) s)
  | failed {i : Instruction} {f : Failure} {input : Input} {output : Output} {calls : List Delivery}
      (instruction : p.get? s.cursor = some i) (transfers : i = .input ∨ i = .output)
      (history : History s.input s.output calls input output) (broken : BrokenBy f calls) :
      Result p s (.stop (.faulted (.channel f)) ⟨s.tape, s.cursor, input, output⟩)

theorem result_move (small : s.tape.capacity ≤ wordLimit) {d : Int8}
    (h : p.get? s.cursor = some (.move d)) : Result p s (execute policy (.move d) s) := by
  have hmove := Tape.move?_eq small d
  cases moved : s.tape.move? d.toInt64 with
  | some tape =>
    obtain ⟨hcells, honCell⟩ := Tape.move?_eq_some moved
    have hnext : execute policy (.move d) s = .next { s with tape, cursor := s.cursor + 1 } := by
      simp only [execute, moved]
    rw [hnext]
    exact .goes h (.inl rfl) honCell (congrArg Array.size hcells) (.nil ..) .nil
  | none =>
    have hstop : execute policy (.move d) s =
        .stop (.faulted (.outOfTape s.cursor s.tape.pointer)) s := by
      simp only [execute, moved]
    rw [hstop]
    refine .refused h fun inside => ?_
    rw [moved, if_pos inside] at hmove
    cases hmove

/-- An instruction that calls a channel goes on, or is stopped by what the channel says. -/
theorem result_transfer {a : Action} (onCell : s.tape.OnCell)
    (h : p.get? s.cursor = some a.instruction)
    (transfers : a.instruction = .input ∨ a.instruction = .output)
    (called : ∀ stop w', a.perform policy s.cursor s.world = (stop, w') →
      ∃ calls, History s.input s.output calls w'.input w'.output ∧
        Action.Called s.tape calls w' stop) :
    Result p s (execute policy a.instruction s) := by
  have hkept := kept_execute policy a.instruction s
  rw [execute_action onCell] at hkept ⊢
  obtain ⟨stop, w', hp⟩ : ∃ stop w', a.perform policy s.cursor s.world = (stop, w') :=
    ⟨_, _, rfl⟩
  have honCell : w'.tape.OnCell := Action.onCell_perform (w := s.world) onCell hp
  obtain ⟨calls, history, hcalled⟩ := called stop w' hp
  rw [hp] at hkept ⊢
  rcases stop with _ | ⟨index, pointer⟩ | f
  · exact .goes h (.inl rfl) honCell hkept.capacity history hcalled
  · exact hcalled.elim
  · obtain ⟨broken, htape⟩ := hcalled
    have hstate : w'.at s.cursor = ⟨s.tape, s.cursor, w'.input, w'.output⟩ := by
      rw [World.at, htape]
    rw [acted, hstate]
    exact .failed h transfers history broken

private theorem result_jump {i : Instruction} {target : Nat} {c : Nat} (onCell : s.tape.OnCell)
    (h : p.get? s.cursor = some i) (htarget : i.target? = some target)
    (hc : c = s.cursor + 1 ∨ c = target) : Result p s (.next (s.world.at c)) := by
  refine .goes h ?_ onCell rfl (.nil ..) .nil
  rcases hc with rfl | rfl
  · exact .inl rfl
  · exact .inr htarget

/-- Every step on a cell has a result. -/
theorem step_result (onCell : s.tape.OnCell) (small : s.tape.capacity ≤ wordLimit) :
    Result p s (step p policy s) := by
  cases h : p.get? s.cursor with
  | none =>
    rw [step_of_none h]
    exact .finished h
  | some i =>
    obtain ⟨b, hb⟩ := onCell.get?
    rw [step_of_get? h]
    cases i with
    | move d => exact result_move small h
    | add d =>
      have hadd : execute policy (.add d) s = .next ({ s.world with tape := s.tape.add d }.at
          (s.cursor + 1)) := execute_action (a := .add d) onCell
      rw [hadd]
      exact .goes h (.inl rfl) (onCell.add d) (Tape.capacity_add ..) (.nil ..) .nil
    | input =>
      exact result_transfer (a := .input) onCell h (.inl rfl) fun _ _ => Action.called_input
    | output =>
      exact result_transfer (a := .output) onCell h (.inr rfl) fun _ _ => Action.called_output
    | loopOpen target =>
      rw [execute_loopOpen hb]
      refine result_jump onCell h rfl ?_
      split
      · exact .inr rfl
      · exact .inl rfl
    | loopClose target =>
      rw [execute_loopClose hb]
      refine result_jump onCell h rfl ?_
      split
      · exact .inl rfl
      · exact .inr rfl

/-! Runs. -/

/-- Loop targets are words, and so is the number of instructions. -/
structure Addressable (p : Program) : Prop where
  size : p.size < wordLimit
  targets : ∀ i ∈ p.instructions.toList, ∀ target ∈ i.target?, target < wordLimit

/-- What holds of every state `s` that a run from `start` comes to. -/
structure Along (start s : State) : Prop where
  onCell : s.tape.OnCell
  capacity : s.tape.capacity = start.tape.capacity
  cursor : s.cursor < wordLimit
  history : ∃ calls, History start.input start.output calls s.input s.output ∧ Smooth calls

private theorem lt_size_of_get? {index : Nat} {i : Instruction} (h : p.get? index = some i) :
    index < p.size := by
  obtain ⟨hlt, -⟩ := Array.getElem?_eq_some_iff.mp h
  exact hlt

theorem along_step (words : Addressable p) {start : State} (small : start.tape.capacity ≤ wordLimit)
    (h : Along start s) (moved : advance? p policy s = some t) : Along start t := by
  have hresult : Result p s (step p policy s) := step_result h.onCell (h.capacity ▸ small)
  rw [advance?_eq_some.mp moved] at hresult
  obtain ⟨calls, history, smooth⟩ := h.history
  cases hresult with
  | @goes i t more instruction lands onCell capacity history' smooth' =>
    refine ⟨onCell, capacity.trans h.capacity, ?_, calls ++ more, history.append history',
      smooth.append smooth'⟩
    have hlt := lt_size_of_get? instruction
    have hsize := words.size
    rcases lands with hnext | htarget
    · omega
    · exact words.targets i (Array.mem_toList_iff.mpr (Array.mem_of_getElem? instruction)) _ htarget

theorem along_reaches (words : Addressable p) (start : State) (onCell : start.tape.OnCell)
    (small : start.tape.capacity ≤ wordLimit) (hcursor : start.cursor < wordLimit) {n : Nat}
    (h : Reaches (advance? p policy) n start s) : Along start s :=
  h.preserves (fun _ _ => along_step words small)
    ⟨onCell, rfl, hcursor, [], .nil .., .nil⟩

/-- What an ending says about the state `t` that a step from `s` left, and about the calls up to there. -/
def Explains (p : Program) (s t : State) (calls : List Delivery) : Ending → Prop
  | .finished => p.size ≤ t.cursor ∧ t.tape = s.tape ∧ Smooth calls
  | .faulted (.outOfTape index pointer) =>
    ∃ d, p.get? index = some (.move d) ∧
      ¬ (0 ≤ pointer + d.toInt ∧ pointer + d.toInt < t.tape.capacity) ∧
      t.tape.pointer = pointer ∧ t.tape = s.tape ∧ t.cursor = index ∧ Smooth calls
  | .faulted (.channel f) =>
    (p.get? t.cursor = some .input ∨ p.get? t.cursor = some .output) ∧ t.tape = s.tape ∧
      t.cursor = s.cursor ∧ BrokenBy f calls
  | .noCell => False

theorem explains_stop {start : State} (small : start.tape.capacity ≤ wordLimit)
    (h : Along start s) (stopped : step p policy s = .stop e t) :
    t.tape = s.tape ∧ ∃ calls, History start.input start.output calls t.input t.output ∧
      Explains p s t calls e := by
  have hresult : Result p s (step p policy s) := step_result h.onCell (h.capacity ▸ small)
  rw [stopped] at hresult
  obtain ⟨calls, history, smooth⟩ := h.history
  cases hresult with
  | finished past =>
    have hsize : p.size ≤ s.cursor := Array.getElem?_eq_none_iff.mp past
    exact ⟨rfl, calls, history, hsize, rfl, smooth⟩
  | refused instruction outside =>
    exact ⟨rfl, calls, history, _, instruction, outside, rfl, rfl, rfl, smooth⟩
  | @failed i f input output more instruction transfers history' broken =>
    refine ⟨rfl, calls ++ more, history.append history', ?_, rfl, rfl, smooth.brokenBy broken⟩
    rcases transfers with rfl | rfl
    · exact .inl instruction
    · exact .inr instruction

/-- Runs stay on the tape, and faults are exact. All along a run the pointer is on a cell of a tape of the
same size, the index of the next instruction is a word, and no step lacks a cell. However the run ends,
its ending tells the instruction that ended it, the tape before that instruction and the calls made. -/
theorem run_faults_exact {tape : Tape} (words : Addressable p) (onCell : tape.pointer < tape.capacity)
    (small : tape.capacity < wordLimit) (policy : EndOfInput) (input : Input) (output : Output) :
    (∀ n s, Reaches (advance? p policy) n ⟨tape, 0, input, output⟩ s →
      s.tape.pointer < s.tape.capacity ∧ s.tape.capacity = tape.capacity ∧ s.cursor < wordLimit ∧
        (∀ i, p.get? s.cursor = some i → s.cursor + 1 < wordLimit) ∧
        ∀ t, step p policy s ≠ .stop .noCell t) ∧
    ∀ fuel e t, run fuel p policy tape input output = some (e, t) →
      t.tape.pointer < t.tape.capacity ∧ t.tape.capacity = tape.capacity ∧
        ∃ n s calls, Reaches (advance? p policy) n ⟨tape, 0, input, output⟩ s ∧
          step p policy s = .stop e t ∧ History input output calls t.input t.output ∧
          Explains p s t calls e := by
  have hsmall := Nat.le_of_lt small
  have along : ∀ {n s}, Reaches (advance? p policy) n ⟨tape, 0, input, output⟩ s →
      Along ⟨tape, 0, input, output⟩ s := fun h =>
    along_reaches words ⟨tape, 0, input, output⟩ onCell hsmall (by decide : 0 < wordLimit) h
  constructor
  · intro n s hreach
    have h := along hreach
    refine ⟨h.onCell, h.capacity, h.cursor, ?_, ?_⟩
    · intro i hi
      exact Nat.lt_of_le_of_lt (lt_size_of_get? hi) words.size
    · intro t hstop
      obtain ⟨-, calls, -, hnone⟩ := explains_stop hsmall h hstop
      exact hnone
  · intro fuel e t hrun
    obtain ⟨n, s, hreach, hstop⟩ := runFrom_eq_some_iff.mp ⟨fuel, hrun⟩
    have h := along hreach
    obtain ⟨htape, calls, history, explains⟩ := explains_stop hsmall h hstop
    exact ⟨htape ▸ h.onCell, htape ▸ h.capacity, n, s, calls, hreach, hstop, history, explains⟩

/-- Reads a byte, jumps as far as an index goes if it is zero, and writes it. -/
def leaping : Program :=
  ⟨#[.input, .loopOpen 0xFFFFFFFFFFFFFFFF, .output, .move 1]⟩

/-- Both channels interrupt, then the output takes nothing. -/
theorem run_faults_exact_broken :
    let input : Input := { events := [.failed (.ofKind .interrupted), .byte 5] }
    let output : Output := { events := [.failed (.ofErrno 4), .refused] }
    Addressable leaping ∧ ∃ t calls,
      run 3 leaping .zero (.new 1) input output =
        some (.faulted (.channel Failure.incompleteWrite), t) ∧
      t.tape = ⟨#[5], 0⟩ ∧ leaping.get? t.cursor = some .output ∧
      History input output calls t.input t.output ∧ BrokenBy Failure.incompleteWrite calls := by
  intro input output
  have words : Addressable leaping := ⟨by decide, by decide⟩
  have hrun : run 3 leaping .zero (.new 1) input output =
      some (.faulted (.channel Failure.incompleteWrite),
        ⟨⟨#[5], 0⟩, 2, { calls := 2 }, { calls := 2 }⟩) := by
    decide
  have onCell : (Tape.new 1).pointer < (Tape.new 1).capacity := by decide
  obtain ⟨-, hends⟩ := run_faults_exact words onCell (by decide) .zero input output
  obtain ⟨-, -, n, s, calls, -, -, history, -, -, -, broken⟩ := hends _ _ _ hrun
  exact ⟨words, _, calls, hrun, rfl, rfl, history, broken⟩

end Interpreter

end TapeLang
