import TapeLang.Channel.Input
import TapeLang.Channel.Output

/-!
# Calls made again

Reading and writing a byte make one call, and another one after each interruption. The interruptions
are in the script, so this ends.
-/

namespace TapeLang

namespace InputEvent

/-- Whether the call is made again. -/
def isInterrupted : InputEvent → Bool
  | .failed f => f.isInterrupted
  | _ => false

/-- What the event is to the reader, unless the call is made again. -/
def outcome : InputEvent → Except Failure (Option UInt8)
  | .byte b => .ok (some b)
  | .ended => .ok none
  | .failed f => .error f

end InputEvent

namespace Input

variable {i i' : Input} {e : InputEvent}

theorem readByte_eq (h : i.call = (e, i')) :
    i.readByte = if e.isInterrupted then i'.readByte else (e.outcome, i') := by
  obtain ⟨events, standing, calls⟩ := i
  obtain ⟨rfl, rfl⟩ := Prod.mk.inj h
  rcases events with _ | ⟨b | _ | f, rest⟩
  · rcases standing with _ | f
    · rfl
    · simp [readByte, readByte.go, afterwards, InputEvent.isInterrupted, InputEvent.outcome,
        f.property]
  · rfl
  · rfl
  · rfl

theorem length_of_interrupted (h : i.call = (e, i')) (he : e.isInterrupted = true) :
    i'.events.length < i.events.length := by
  obtain ⟨events, standing, calls⟩ := i
  obtain ⟨rfl, rfl⟩ := Prod.mk.inj h
  rcases events with _ | ⟨e, rest⟩
  · rcases standing with _ | f
    · cases he
    · exact absurd he (by simp [afterwards, InputEvent.isInterrupted, f.property])
  · exact Nat.lt_succ_self _

/-- Induction along the calls that are interrupted. -/
theorem induction_on_calls {motive : Input → Prop} (i : Input)
    (step : ∀ i, (∀ e i', i.call = (e, i') → e.isInterrupted = true → motive i') → motive i) :
    motive i := by
  generalize hn : i.events.length = n
  induction n using Nat.strongRecOn generalizing i with
  | ind n ih =>
    subst hn
    exact step i fun e i' h he => ih _ (length_of_interrupted h he) i' rfl

end Input

namespace OutputEvent

/-- Whether the call is made again. -/
def isInterrupted : OutputEvent → Bool
  | .failed f => f.isInterrupted
  | _ => false

/-- What the event is to the writer, unless the call is made again. -/
def outcome : OutputEvent → Except Failure Unit
  | .taken => .ok ()
  | .refused => .error Failure.incompleteWrite
  | .failed f => .error f

end OutputEvent

namespace Output

variable {b : UInt8} {o o' : Output} {e : OutputEvent}

theorem writeByte_eq (h : o.call b = (e, o')) :
    o.writeByte b = if e.isInterrupted then o'.writeByte b else (e.outcome, o') := by
  obtain ⟨events, standing, flushRule, written, calls, flushes⟩ := o
  obtain ⟨rfl, rfl⟩ := Prod.mk.inj h
  rcases events with _ | ⟨_ | _ | f, rest⟩
  · rcases standing with _ | f
    · rfl
    · simp [writeByte, skipInterrupted, afterwards, OutputEvent.isInterrupted, OutputEvent.outcome,
        f.property]
  · rfl
  · rfl
  · cases hf : f.isInterrupted with
    | true => simp [writeByte, skipInterrupted, OutputEvent.isInterrupted, hf, Nat.add_assoc,
        Nat.add_comm 1]
    | false => simp [writeByte, skipInterrupted, OutputEvent.isInterrupted, OutputEvent.outcome, hf]

theorem length_of_interrupted (h : o.call b = (e, o')) (he : e.isInterrupted = true) :
    o'.events.length < o.events.length := by
  obtain ⟨events, standing, flushRule, written, calls, flushes⟩ := o
  obtain ⟨rfl, rfl⟩ := Prod.mk.inj h
  rcases events with _ | ⟨e, rest⟩
  · rcases standing with _ | f
    · cases he
    · exact absurd he (by simp [afterwards, OutputEvent.isInterrupted, f.property])
  · exact Nat.lt_succ_self _

/-- Induction along the calls that are interrupted. -/
theorem induction_on_calls {motive : Output → Prop} (b : UInt8) (o : Output)
    (step : ∀ o, (∀ e o', o.call b = (e, o') → e.isInterrupted = true → motive o') → motive o) :
    motive o := by
  generalize hn : o.events.length = n
  induction n using Nat.strongRecOn generalizing o with
  | ind n ih =>
    subst hn
    exact step o fun e o' h he => ih _ (length_of_interrupted h he) o' rfl

end Output

end TapeLang
