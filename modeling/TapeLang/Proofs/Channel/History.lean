import TapeLang.Proofs.Channel.Retry

/-!
# Histories of channels

A history lists the calls made on an input and an output in their order, with what each of them met.
Reading or writing a byte makes calls that are interrupted and a last one that decides.
-/

namespace TapeLang

/-- A call on one of two channels, and what it met. -/
inductive Delivery where
  | read (e : InputEvent)
  | write (b : UInt8) (e : OutputEvent)
  deriving DecidableEq, Repr

namespace Delivery

/-- The failure a call met. An interruption is none; a write that takes nothing is one. -/
def failure? : Delivery → Option Failure
  | .read (.failed f) => if f.isInterrupted then none else some f
  | .write _ .refused => some Failure.incompleteWrite
  | .write _ (.failed f) => if f.isInterrupted then none else some f
  | _ => none

/-- No call failed, except for interruptions. -/
def Smooth (calls : List Delivery) : Prop :=
  ∀ c ∈ calls, c.failure? = none

/-- The last call met this failure, and none before it failed. -/
def BrokenBy (f : Failure) (calls : List Delivery) : Prop :=
  ∃ before last, calls = before ++ [last] ∧ Smooth before ∧ last.failure? = some f

theorem Smooth.nil : Smooth [] := by
  intro c hc
  cases hc

theorem Smooth.append {calls more : List Delivery} (h : Smooth calls) (h' : Smooth more) :
    Smooth (calls ++ more) := by
  intro c hc
  rcases List.mem_append.mp hc with hc | hc
  · exact h c hc
  · exact h' c hc

theorem Smooth.brokenBy {calls more : List Delivery} {f : Failure} (h : Smooth calls)
    (h' : BrokenBy f more) : BrokenBy f (calls ++ more) := by
  obtain ⟨before, last, rfl, hbefore, hlast⟩ := h'
  exact ⟨calls ++ before, last, (List.append_assoc ..).symm, h.append hbefore, hlast⟩

/-- What calls that ended with a result met. -/
def Ended {α : Type} (calls : List Delivery) : Except Failure α → Prop
  | .ok _ => Smooth calls
  | .error f => BrokenBy f calls

private theorem ended_read {e : InputEvent} (h : e.isInterrupted = false) :
    Ended [.read e] e.outcome := by
  cases e with
  | byte b => simp [Ended, InputEvent.outcome, Smooth, failure?]
  | ended => simp [Ended, InputEvent.outcome, Smooth, failure?]
  | failed f =>
    have hf : f.isInterrupted = false := h
    exact ⟨[], .read (.failed f), rfl, .nil, by simp [failure?, hf]⟩

private theorem ended_write {b : UInt8} {e : OutputEvent} (h : e.isInterrupted = false) :
    Ended [.write b e] e.outcome := by
  cases e with
  | taken => simp [Ended, OutputEvent.outcome, Smooth, failure?]
  | refused => exact ⟨[], .write b .refused, rfl, .nil, rfl⟩
  | failed f =>
    have hf : f.isInterrupted = false := h
    exact ⟨[], .write b (.failed f), rfl, .nil, by simp [failure?, hf]⟩

/-- A call that is made again does not matter. -/
theorem Ended.cons {α : Type} {c : Delivery} {calls : List Delivery} {r : Except Failure α}
    (h : c.failure? = none) (hr : Ended calls r) : Ended (c :: calls) r := by
  have hc : Smooth [c] := by simpa [Smooth] using h
  cases r with
  | ok a => exact hc.append hr
  | error f => exact hc.brokenBy hr

end Delivery

/-- `History i o calls i' o'`: the calls, one after the other, take the channels from `i` and `o` to `i'`
and `o'`. -/
inductive History : Input → Output → List Delivery → Input → Output → Prop where
  | nil (i : Input) (o : Output) : History i o [] i o
  | read {i i' i'' : Input} {o o' : Output} {e : InputEvent} {calls : List Delivery}
      (first : i.call = (e, i')) (tail : History i' o calls i'' o') :
      History i o (.read e :: calls) i'' o'
  | write {i i' : Input} {o o' o'' : Output} {b : UInt8} {e : OutputEvent} {calls : List Delivery}
      (first : o.call b = (e, o')) (tail : History i o' calls i' o'') :
      History i o (.write b e :: calls) i' o''

namespace History

variable {i i' i'' : Input} {o o' o'' : Output}

theorem append {calls more : List Delivery} (h : History i o calls i' o')
    (h' : History i' o' more i'' o'') : History i o (calls ++ more) i'' o'' := by
  induction h with
  | nil => exact h'
  | read first _ ih => exact .read first (ih h')
  | write first _ ih => exact .write first (ih h')

/-- Reading a byte is a history, and its last call decides. -/
theorem of_readByte (i : Input) (o : Output) :
    ∃ calls, History i o calls i.readByte.2 o ∧ Delivery.Ended calls i.readByte.1 := by
  induction i using Input.induction_on_calls with
  | step i ih =>
    obtain ⟨e, left, hcall⟩ : ∃ e left, i.call = (e, left) := ⟨_, _, rfl⟩
    rw [Input.readByte_eq hcall]
    cases he : e.isInterrupted with
    | true =>
      obtain ⟨calls, hcalls, hended⟩ := ih e left hcall he
      have hnone : (Delivery.read e).failure? = none := by
        cases e with
        | failed f => exact if_pos he
        | _ => rfl
      exact ⟨.read e :: calls, .read hcall hcalls, hended.cons hnone⟩
    | false => exact ⟨[.read e], .read hcall (.nil left o), Delivery.ended_read he⟩

/-- Writing a byte is a history, and its last call decides. -/
theorem of_writeByte (i : Input) (o : Output) (b : UInt8) :
    ∃ calls, History i o calls i (o.writeByte b).2 ∧ Delivery.Ended calls (o.writeByte b).1 := by
  induction o using Output.induction_on_calls b with
  | step o ih =>
    obtain ⟨e, left, hcall⟩ : ∃ e left, o.call b = (e, left) := ⟨_, _, rfl⟩
    rw [Output.writeByte_eq hcall]
    cases he : e.isInterrupted with
    | true =>
      obtain ⟨calls, hcalls, hended⟩ := ih e left hcall he
      have hnone : (Delivery.write b e).failure? = none := by
        cases e with
        | failed f => exact if_pos he
        | _ => cases he
      exact ⟨.write b e :: calls, .write hcall hcalls, hended.cons hnone⟩
    | false => exact ⟨[.write b e], .write hcall (.nil i left), Delivery.ended_write he⟩

end History

end TapeLang
