import TapeLang.Proofs.Interpreter.Steps

/-!
# Blocks laid flat behave as they evaluate

A close jumps just behind its open and does not look at the cell again there. So the same step is taken
at either end of a loop, and a run that comes to the close goes on as if it were at the open.
-/

namespace TapeLang.Block

open Interpreter Transition

variable {p : Program} {policy : EndOfInput} {start : Nat} {b body rest : Block} {a : Action}

/-- The instructions of `b`, laid flat at `start`, stand there in the program. -/
def Laid (p : Program) (start : Nat) (b : Block) : Prop :=
  ∀ i instr, (b.flatten start)[i]? = some instr → p.get? (start + i) = some instr

theorem laid_program (b : Block) : Laid b.program 0 b := by
  intro i instr h
  simpa [Program.get?, program] using h

namespace Laid

theorem act_head (h : Laid p start (.act a rest)) : p.get? start = some a.instruction := by
  simpa [flatten] using h 0

theorem act_rest (h : Laid p start (.act a rest)) : Laid p (start + 1) rest := by
  intro i instr hi
  have := h (i + 1) instr (by simpa [flatten] using hi)
  rwa [Nat.add_comm i, ← Nat.add_assoc] at this

theorem loop_open (h : Laid p start (.loop body rest)) :
    p.get? start = some (.loopOpen (start + body.size + 2)) := by
  have := h 0 (.loopOpen (start + 1 + body.size + 1)) (by simp [flatten])
  rwa [Nat.add_zero, Nat.add_right_comm start 1] at this

theorem loop_body (h : Laid p start (.loop body rest)) : Laid p (start + 1) body := by
  intro i instr hi
  have hlt : i < (body.flatten (start + 1)).length := (List.getElem?_eq_some_iff.mp hi).1
  have := h (i + 1) instr (by
    simp only [flatten, List.cons_append, List.getElem?_cons_succ]
    rwa [List.getElem?_append_left hlt])
  rwa [Nat.add_comm i, ← Nat.add_assoc] at this

theorem loop_close (h : Laid p start (.loop body rest)) :
    p.get? (start + body.size + 1) = some (.loopClose (start + 1)) := by
  have := h (body.size + 1) (.loopClose (start + 1)) (by
    simp only [flatten, List.cons_append, List.getElem?_cons_succ]
    rw [List.getElem?_append_right (by simp)]
    simp)
  rwa [← Nat.add_assoc] at this

theorem loop_rest (h : Laid p start (.loop body rest)) :
    Laid p (start + body.size + 2) rest := by
  intro i instr hi
  have hstart : start + body.size + 2 = start + 1 + body.size + 1 := by omega
  have := h (body.size + 2 + i) instr (by
    have hindex : body.size + 2 + i = (body.size + (i + 1)) + 1 := by omega
    rw [hindex]
    simp only [flatten, List.cons_append, List.getElem?_cons_succ]
    rw [List.getElem?_append_right (by simp), length_flatten, Nat.add_sub_cancel_left,
      List.getElem?_cons_succ]
    rwa [← hstart])
  rwa [← Nat.add_assoc, ← Nat.add_assoc] at this

end Laid

/-- Both ends of a loop take the same step. -/
theorem step_close_eq_step_open (policy : EndOfInput) (h : Laid p start (.loop body rest))
    {w : World} (hw : w.tape.OnCell) :
    step p policy (w.at (start + body.size + 1)) = step p policy (w.at start) := by
  obtain ⟨b, hb⟩ := hw.get?
  rw [step_of_get? h.loop_close, step_of_get? h.loop_open, execute_loopClose hb,
    execute_loopOpen hb]
  rfl

theorem step_open (policy : EndOfInput) (h : Laid p start (.loop body rest)) {w : World}
    {b : UInt8} (hb : w.tape.get? = some b) :
    step p policy (w.at start) =
      .next (w.at (if b = 0 then start + body.size + 2 else start + 1)) := by
  rw [step_of_get? h.loop_open, execute_loopOpen hb]
  rfl

private theorem step_act (policy : EndOfInput) (h : Laid p start (.act a rest)) {w : World}
    (hw : w.tape.OnCell) :
    step p policy (w.at start) = acted start (a.perform policy start w) := by
  rw [step_of_get? h.act_head, execute_action hw]
  rfl

theorem onCell_of_evaluates {w w' : World} {stop : Option Fault}
    (h : Evaluates policy start b w stop w') (hw : w.tape.OnCell) : w'.tape.OnCell := by
  induction h with
  | done => exact hw
  | act first _ ih => exact ih (Action.onCell_perform hw first)
  | actStopped first => exact Action.onCell_perform hw first
  | loopLeft _ _ ih => exact ih hw
  | loopAgain _ _ _ _ ihRound ihTail => exact ihTail (ihRound hw)
  | loopStopped _ _ _ ihRound => exact ihRound hw

/-- Where a run stands when a block is through, or what ended it. -/
def Outcome (p : Program) (policy : EndOfInput) (behind : Nat) (s : State) (w : World) :
    Option Fault → Prop
  | none => ∃ n, Reaches (advance? p policy) n s (w.at behind)
  | some f => ∃ n t t', Reaches (advance? p policy) n s t ∧
      step p policy t = .stop (.faulted f) t' ∧ t'.world = w

theorem Outcome.after {behind n : Nat} {s t : State} {w : World} {stop : Option Fault}
    (h : Reaches (advance? p policy) n s t) (ht : Outcome p policy behind t w stop) :
    Outcome p policy behind s w stop := by
  cases stop with
  | none =>
    obtain ⟨m, hm⟩ := ht
    exact ⟨n + m, h.trans hm⟩
  | some f =>
    obtain ⟨m, u, u', hm, hstop, hw⟩ := ht
    exact ⟨n + m, u, u', h.trans hm, hstop, hw⟩

/-- States that take the same step have the same outcome, unless the first is through already. -/
theorem Outcome.of_step_eq {behind : Nat} {s s' : State} {w : World} {stop : Option Fault}
    (same : step p policy s' = step p policy s) (before : s.cursor ≠ behind)
    (h : Outcome p policy behind s w stop) : Outcome p policy behind s' w stop := by
  have advance_same : advance? p policy s' = advance? p policy s := by simp [advance?, same]
  cases stop with
  | none =>
    obtain ⟨n, hn⟩ := h
    cases hn with
    | refl => exact absurd rfl before
    | step first tail => exact ⟨_, .step (advance_same.trans first) tail⟩
  | some f =>
    obtain ⟨n, t, t', hn, hstop, hw⟩ := h
    cases hn with
    | refl => exact ⟨0, s', t', .refl s', same.trans hstop, hw⟩
    | step first tail => exact ⟨_, t, t', .step (advance_same.trans first) tail, hstop, hw⟩

theorem outcome_of_evaluates {w w' : World} {stop : Option Fault}
    (h : Evaluates policy start b w stop w') (laid : Laid p start b) (hw : w.tape.OnCell) :
    Outcome p policy (start + b.size) (w.at start) w' stop := by
  induction h with
  | done => exact ⟨0, .refl _⟩
  | @act start a rest w w₁ w₂ stop first tail ih =>
    have hstep : step p policy (w.at start) = .next (w₁.at (start + 1)) := by
      rw [step_act policy laid hw, first]
      rfl
    have htail := ih laid.act_rest (Action.onCell_perform hw first)
    rw [size, Nat.add_comm rest.size, ← Nat.add_assoc]
    exact htail.after (.single (advance?_eq_some.mpr hstep))
  | @actStopped start a rest w w₁ f first =>
    have hstep : step p policy (w.at start) = .stop (.faulted f) (w₁.at start) := by
      rw [step_act policy laid hw, first]
      rfl
    exact ⟨0, _, _, .refl _, hstep, rfl⟩
  | @loopLeft start body rest w w₁ stop zero tail ih =>
    have hstep := step_open policy laid zero
    rw [if_pos rfl] at hstep
    have htail := ih laid.loop_rest hw
    have hbehind : start + body.size + 2 + rest.size = start + (loop body rest).size := by
      simp only [size]
      omega
    rw [hbehind] at htail
    exact htail.after (.single (advance?_eq_some.mpr hstep))
  | @loopAgain start body rest b w w₁ w₂ stop cell nonzero round tail ihRound ihTail =>
    have hstep := step_open policy laid cell
    rw [if_neg nonzero] at hstep
    obtain ⟨n, hn⟩ := ihRound laid.loop_body hw
    rw [Nat.add_right_comm] at hn
    -- The round ends at the close; the next one is known from the open.
    have hw₁ := onCell_of_evaluates round hw
    have hopen := ihTail laid hw₁
    have hclose : Outcome p policy (start + (loop body rest).size)
        (w₁.at (start + body.size + 1)) w₂ stop := by
      refine hopen.of_step_eq (step_close_eq_step_open policy laid hw₁) ?_
      simp only [World.cursor_at, size]
      omega
    exact (hclose.after hn).after (.single (advance?_eq_some.mpr hstep))
  | @loopStopped start body rest b w w₁ f cell nonzero round ihRound =>
    have hstep := step_open policy laid cell
    rw [if_neg nonzero] at hstep
    obtain ⟨n, t, t', hn, hstop, hw'⟩ := ihRound laid.loop_body hw
    exact ⟨n + 1, t, t', .step (advance?_eq_some.mpr hstep) hn, hstop, hw'⟩

/-- A run through a block that comes to a stop: the block was evaluated up to a fault that ended the run
in it, or all of it was, and the run went on behind it. -/
inductive Passed (p : Program) (policy : EndOfInput) (start : Nat) (b : Block) (n : Nat) (w : World)
    (t : State) (e : Ending) (t' : State) : Prop where
  | inside {f : Fault} (ending : e = .faulted f)
      (evaluates : Evaluates policy start b w (some f) t'.world)
  | behind {m : Nat} {w₁ : World} (shorter : m ≤ n) (evaluates : Evaluates policy start b w none w₁)
      (run : Reaches (advance? p policy) m (w₁.at (start + b.size)) t)

/-- By induction on the length of the run, and on the block while no step is taken. -/
theorem passed_of_run {n : Nat} {w : World} {t t' : State} {e : Ending} (laid : Laid p start b)
    (hw : w.tape.OnCell) (run : Reaches (advance? p policy) n (w.at start) t)
    (stopped : step p policy t = .stop e t') : Passed p policy start b n w t e t' := by
  induction n using Nat.strongRecOn generalizing start b w with
  | ind n ih =>
    cases b with
    | done => exact .behind (Nat.le_refl n) .done run
    | act a rest =>
      have hstep := step_act policy laid hw
      rcases hperform : a.perform policy start w with ⟨_ | f, w₁⟩
      · rw [hperform, acted] at hstep
        cases run with
        | refl => simp [hstep] at stopped
        | @step n _ u _ first tail =>
          obtain rfl : w₁.at (start + 1) = u := by
            rw [advance?_eq_some, hstep] at first
            exact Step.next.inj first
          have hw₁ := Action.onCell_perform hw hperform
          rcases ih n (by omega) laid.act_rest hw₁ tail with ⟨hend, heval⟩ | ⟨hm, heval, hrun⟩
          · exact .inside hend (.act hperform heval)
          · rw [Nat.add_assoc, Nat.add_comm 1] at hrun
            exact .behind (by omega) (.act hperform heval) hrun
      · rw [hperform, acted] at hstep
        cases run with
        | refl =>
          rw [hstep] at stopped
          obtain ⟨rfl, rfl⟩ := Step.stop.inj stopped
          exact .inside rfl (.actStopped hperform)
        | step first _ => simp [advance?_eq_some, hstep] at first
    | loop body rest =>
      obtain ⟨c, hc⟩ := hw.get?
      have hstep := step_open policy laid hc
      cases run with
      | refl => simp [hstep] at stopped
      | @step n _ u _ first tail =>
        rw [advance?_eq_some, hstep] at first
        obtain rfl := Step.next.inj first
        have hbehind : start + body.size + 2 + rest.size = start + (loop body rest).size := by
          simp only [size]
          omega
        by_cases hzero : c = 0
        · subst hzero
          rw [if_pos rfl] at tail
          rcases ih n (by omega) laid.loop_rest hw tail with ⟨hend, heval⟩ | ⟨hm, heval, hrun⟩
          · exact .inside hend (.loopLeft hc heval)
          · rw [hbehind] at hrun
            exact .behind (by omega) (.loopLeft hc heval) hrun
        · rw [if_neg hzero] at tail
          rcases ih n (by omega) laid.loop_body hw tail with ⟨hend, hround⟩ | ⟨hm, hround, hrun⟩
          · exact .inside hend (.loopStopped hc hzero hround)
          · -- At the close the run goes on as it would at the open, with fewer steps to go.
            rename_i m w₁
            have hw₁ := onCell_of_evaluates hround hw
            rw [Nat.add_right_comm] at hrun
            have same := step_close_eq_step_open policy laid hw₁
            have hopen : Reaches (advance? p policy) m (w₁.at start) t := by
              cases hrun with
              | refl =>
                rw [same] at stopped
                obtain ⟨c₁, hc₁⟩ := hw₁.get?
                simp [step_open policy laid hc₁] at stopped
              | step first' tail' =>
                rw [advance?_eq_some, same] at first'
                exact .step (advance?_eq_some.mpr first') tail'
            rcases ih m (by omega) laid hw₁ hopen with ⟨hend, htail⟩ | ⟨hm', htail, hrun'⟩
            · exact .inside hend (.loopAgain hc hzero hround htail)
            · exact .behind (by omega) (.loopAgain hc hzero hround htail) hrun'

/-- How a run ends that a fault stopped, or nothing. -/
def endingOf : Option Fault → Ending
  | none => .finished
  | some f => .faulted f

/-- A run of the instructions of a block ends as the block evaluates. -/
theorem run_program_iff (b : Block) (policy : EndOfInput) {w w' : World} {e : Ending}
    (hw : w.tape.OnCell) :
    (∃ fuel s, run fuel b.program policy w.tape w.input w.output = some (e, s) ∧ s.world = w') ↔
      ∃ stop, e = endingOf stop ∧ Evaluates policy 0 b w stop w' := by
  have hend : b.program.get? b.size = none := by
    simp [Program.get?, program]
  constructor
  · rintro ⟨fuel, s, hrun, rfl⟩
    obtain ⟨n, t, hn, hstop⟩ := runFrom_eq_some_iff.mp ⟨fuel, hrun⟩
    rcases passed_of_run (laid_program b) hw hn hstop with ⟨hfault, heval⟩ | ⟨-, heval, hbehind⟩
    · exact ⟨some _, hfault, heval⟩
    · -- Behind the block there is nothing left to run.
      rename_i w₁
      rw [Nat.zero_add] at hbehind
      have hlast : step b.program policy (w₁.at b.size) = .stop .finished (w₁.at b.size) :=
        step_of_none hend
      cases hbehind with
      | refl =>
        rw [hlast] at hstop
        obtain ⟨rfl, rfl⟩ := Step.stop.inj hstop
        exact ⟨none, rfl, heval⟩
      | step first _ => simp [advance?_eq_some, hlast] at first
  · rintro ⟨stop, rfl, heval⟩
    have houtcome := outcome_of_evaluates heval (laid_program b) hw
    cases stop with
    | none =>
      obtain ⟨n, hn⟩ := houtcome
      rw [Nat.zero_add] at hn
      have hlast : step b.program policy (w'.at b.size) = .stop .finished (w'.at b.size) :=
        step_of_none hend
      obtain ⟨fuel, h⟩ := runFrom_eq_some_iff.mpr ⟨n, _, hn, hlast⟩
      exact ⟨fuel, _, h, rfl⟩
    | some f =>
      obtain ⟨n, t, t', hn, hstop, hworld⟩ := houtcome
      obtain ⟨fuel, h⟩ := runFrom_eq_some_iff.mpr ⟨n, t, hn, hstop⟩
      exact ⟨fuel, t', h, hworld⟩

end TapeLang.Block
