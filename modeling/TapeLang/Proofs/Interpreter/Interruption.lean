import TapeLang.Proofs.Channel.Interruption
import TapeLang.Proofs.Interpreter.Lockstep

/-!
# Interruptions do not show

A run goes on in the same way if the interruptions are taken out of the scripts of its channels. It makes
fewer calls then, by as many as were interrupted. What a read meets is the next event of the script that is
no interruption, whatever came before it: an end of the input is not for good.
-/

namespace TapeLang

open Transition

/-- Worlds that calls have led to from two inputs and outputs, in the second case without the interrupted
calls. -/
structure Unperturbed (input : Input) (output : Output) (w w' : World) : Prop where
  onCell : w.tape.OnCell
  tape : w'.tape = w.tape
  calmInput : w.input.Calmed w'.input
  calmOutput : w.output.Calmed w'.output
  history : ∃ calls, History input output calls w.input w.output ∧
    History input.uninterrupted output.uninterrupted (Delivery.settled calls) w'.input w'.output

namespace Unperturbed

variable {input : Input} {output : Output} {w w' : World}

theorem start {tape : Tape} (onCell : tape.OnCell) (input : Input) (output : Output) :
    Unperturbed input output ⟨tape, input, output⟩
      ⟨tape, input.uninterrupted, output.uninterrupted⟩ :=
  ⟨onCell, rfl, input.calmed_uninterrupted, output.calmed_uninterrupted, [], .nil .., .nil ..⟩

/-- Further calls, on the second side without the interrupted ones. -/
theorem history_append (h : Unperturbed input output w w') {i i' : Input} {o o' : Output}
    (more : ∃ calls, History w.input w.output calls i o ∧
      History w'.input w'.output (Delivery.settled calls) i' o') :
    ∃ calls, History input output calls i o ∧
      History input.uninterrupted output.uninterrupted (Delivery.settled calls) i' o' := by
  obtain ⟨before, hbefore, hbefore'⟩ := h.history
  obtain ⟨after, hafter, hafter'⟩ := more
  refine ⟨before ++ after, hbefore.append hafter, ?_⟩
  rw [Delivery.settled_append]
  exact hbefore'.append hafter'

end Unperturbed

theorem lockstep_unperturbed (policy : EndOfInput) (input : Input) (output : Output) :
    Lockstep policy (Unperturbed input output) (fun _ _ _ => False) := by
  refine .of_channels (fun h => h.onCell) (fun h => h.tape) ?_ ?_ ?_
  · intro w w' t h onCell
    exact ⟨onCell, rfl, h.calmInput, h.calmOutput, h.history⟩
  · intro w w' h
    obtain ⟨hresult, hcalmed, hcalls⟩ := h.calmInput.readByte w.output w'.output
    exact ⟨hresult, h.onCell, h.tape, hcalmed, h.calmOutput, h.history_append hcalls⟩
  · intro w w' b h _
    obtain ⟨hresult, hcalmed, hcalls⟩ := h.calmOutput.writeByte b w.input w'.input
    exact .inr ⟨hresult, h.onCell, h.tape, h.calmInput, hcalmed, h.history_append hcalls⟩

namespace Interpreter

variable {p : Program} {policy : EndOfInput} {tape : Tape}

/-- Without interruptions nothing makes the runs part. -/
theorem sameResult_uninterrupted (onCell : tape.OnCell) (p : Program) (policy : EndOfInput)
    (input : Input) (output : Output) (fuel : Nat) :
    Lockstep.SameResult (Unperturbed input output) (run fuel p policy tape input output)
      (run fuel p policy tape input.uninterrupted output.uninterrupted) := by
  have start := Unperturbed.start onCell input output
  rcases (lockstep_unperturbed policy input output).run start p fuel with same | parted
  · exact same
  · obtain ⟨-, -, -, -, -, -, -, -, -, -, parts⟩ := parted
    exact parts.elim

/-- Along a run the input has lost one event of its script for each call. -/
theorem events_of_reaches (onCell : tape.OnCell) {input : Input} {output : Output} {n : Nat} {s : State}
    (h : Reaches (advance? p policy) n ⟨tape, 0, input, output⟩ s) :
    s.tape.OnCell ∧ s.input.events = input.events.drop (s.input.calls - input.calls) := by
  have start := Unperturbed.start onCell input output
  rcases (lockstep_unperturbed policy input output).reaches start h with reached | parted
  · obtain ⟨v, v', c, rfl, -, hv⟩ := reached
    obtain ⟨calls, hcalls, -⟩ := hv.history
    have hused : v.input.calls - input.calls = calls.countP Delivery.isRead := by
      have := hcalls.calls_input
      omega
    exact ⟨hv.onCell, hused ▸ hcalls.events_input⟩
  · obtain ⟨-, -, -, -, -, -, -, -, -, -, parts⟩ := parted
    exact parts.elim

private theorem step_of_readByte {s : State} {b : UInt8} (onCell : s.tape.OnCell)
    (hinput : p.get? s.cursor = some .input) (hread : s.input.readByte.1 = .ok (some b)) :
    ∃ t, step p policy s = .next t ∧ t.tape = s.tape.set b := by
  obtain ⟨tape, cursor, input, output⟩ := s
  rcases hleft : input.readByte with ⟨r, left⟩
  obtain rfl : r = .ok (some b) := by
    rw [← hread]
    exact (congrArg Prod.fst hleft).symm
  refine ⟨⟨tape.set b, cursor + 1, left, output⟩, ?_, rfl⟩
  rw [step_of_get? hinput]
  refine (execute_action (a := .input) onCell).trans ?_
  simp only [Action.perform, State.world, hleft, Action.receive]
  rfl

/-- Interruptions do not show. A run whose scripts have none ends exactly when the run with them does, in the
same way, with the same tape and the same bytes written. It makes the calls of that run, listed by `calls`,
that were not interrupted, and so as many fewer as were. And a read is given the next byte of the
script, in what the calls so far have left of it, even if the input had ended before. -/
theorem run_uninterrupted (onCell : tape.pointer < tape.capacity) (p : Program) (policy : EndOfInput)
    (input : Input) (output : Output) :
    (∀ fuel e t, run fuel p policy tape input output = some (e, t) →
      ∃ t' calls,
        run fuel p policy tape input.uninterrupted output.uninterrupted = some (e, t') ∧
        t'.tape = t.tape ∧ t'.output.written = t.output.written ∧
        History input output calls t.input t.output ∧
        History input.uninterrupted output.uninterrupted (Delivery.settled calls) t'.input t'.output ∧
        t.input.calls = t'.input.calls + calls.countP (fun c => c.isRead && c.isInterrupted) ∧
        t.output.calls = t'.output.calls + calls.countP (fun c => c.isWrite && c.isInterrupted)) ∧
    (∀ fuel, run fuel p policy tape input output = none →
      run fuel p policy tape input.uninterrupted output.uninterrupted = none) ∧
    ∀ n s b, Reaches (advance? p policy) n ⟨tape, 0, input, output⟩ s →
      p.get? s.cursor = some .input →
      (input.events.drop (s.input.calls - input.calls)).find? (fun e => !e.isInterrupted) =
        some (.byte b) →
      ∃ t, step p policy s = .next t ∧ t.tape = s.tape.set b := by
  refine ⟨?_, ?_, ?_⟩
  · intro fuel e t hrun
    have same := sameResult_uninterrupted onCell p policy input output fuel
    rw [hrun] at same
    obtain ⟨w', hrun', h⟩ := same.of_some
    obtain ⟨calls, hcalls, hsettled⟩ := h.history
    refine ⟨_, calls, hrun', h.tape, h.calmOutput.written, hcalls, hsettled, ?_, ?_⟩
    · calc t.input.calls
        _ = input.calls + calls.countP Delivery.isRead := hcalls.calls_input
        _ = input.calls + (Delivery.settled calls).countP Delivery.isRead +
              calls.countP fun c => c.isRead && c.isInterrupted := by
            rw [Delivery.countP_settled, Nat.add_assoc]
        _ = w'.input.calls + calls.countP fun c => c.isRead && c.isInterrupted := by
            rw [hsettled.calls_input, Input.uninterrupted]
    · calc t.output.calls
        _ = output.calls + calls.countP Delivery.isWrite := hcalls.calls_output
        _ = output.calls + (Delivery.settled calls).countP Delivery.isWrite +
              calls.countP fun c => c.isWrite && c.isInterrupted := by
            rw [Delivery.countP_settled, Nat.add_assoc]
        _ = w'.output.calls + calls.countP fun c => c.isWrite && c.isInterrupted := by
            rw [hsettled.calls_output, Output.uninterrupted]
  · intro fuel hrun
    have same := sameResult_uninterrupted onCell p policy input output fuel
    rw [hrun] at same
    exact same.of_none
  · intro n s b hreach hinput hnext
    obtain ⟨hcell, hevents⟩ := events_of_reaches onCell hreach
    rw [← hevents] at hnext
    exact step_of_readByte hcell hinput (Input.readByte_of_find? hnext)

/-- Three of seven calls are interrupted, and the input goes on behind an end. -/
theorem run_uninterrupted_resumed :
    let p : Program := ⟨#[.input, .output, .input, .output]⟩
    let input : Input := { events :=
      [.failed (.ofKind .interrupted), .ended, .failed (.ofErrno 4), .byte 65] }
    let output : Output := { events := [.failed (.ofKind .interrupted)] }
    (∃ t t' calls, run 5 p .minusOne (.new 1) input output = some (.finished, t) ∧
      run 5 p .minusOne (.new 1) input.uninterrupted output.uninterrupted = some (.finished, t') ∧
      t'.tape = ⟨#[65], 0⟩ ∧ t'.output.written = #[255, 65] ∧
      History input output calls t.input t.output ∧
      4 = t'.input.calls + calls.countP (fun c => c.isRead && c.isInterrupted) ∧
      3 = t'.output.calls + calls.countP (fun c => c.isWrite && c.isInterrupted)) ∧
    ∃ s t, Reaches (advance? p .minusOne) 2 ⟨.new 1, 0, input, output⟩ s ∧
      step p .minusOne s = .next t ∧ t.tape = s.tape.set 65 := by
  intro p input output
  have onCell : (Tape.new 1).pointer < (Tape.new 1).capacity := by decide
  have hrun : run 5 p .minusOne (.new 1) input output = some (.finished,
      ⟨⟨#[65], 0⟩, 4, { calls := 4 }, { written := #[255, 65], calls := 3 }⟩) := by decide
  obtain ⟨hends, -, hreads⟩ := run_uninterrupted onCell p .minusOne input output
  constructor
  · obtain ⟨t', calls, hrun', htape, hwritten, hcalls, -, hinput, houtput⟩ := hends _ _ _ hrun
    exact ⟨_, t', calls, hrun, hrun', htape, hwritten, hcalls, hinput, houtput⟩
  · have hreach : Reaches (advance? p .minusOne) 2 ⟨.new 1, 0, input, output⟩
        ⟨⟨#[255], 0⟩, 2, ⟨[.failed (.ofErrno 4), .byte 65], none, 2⟩,
          { written := #[255], calls := 2 }⟩ :=
      .step (t := ⟨⟨#[255], 0⟩, 1, ⟨[.failed (.ofErrno 4), .byte 65], none, 2⟩, output⟩) (by decide)
        (.single (by decide))
    obtain ⟨t, hstep, htape⟩ := hreads _ _ 65 hreach (by decide) (by decide)
    exact ⟨_, t, hreach, hstep, htape⟩

end Interpreter

end TapeLang
