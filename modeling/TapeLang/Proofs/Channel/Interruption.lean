import TapeLang.Proofs.Channel.History

/-!
# Scripts without interruptions

An interrupted call is made again, so it is as if it had not been made. A channel and the same channel with
the interruptions taken out of its script give the same bytes and the same failures; the second has the
history of the first without the interrupted calls.
-/

namespace TapeLang

namespace Delivery

/-- Whether the call is made again. -/
def isInterrupted : Delivery → Bool
  | .read e => e.isInterrupted
  | .write _ e => e.isInterrupted

def isRead : Delivery → Bool
  | .read _ => true
  | .write .. => false

def isWrite : Delivery → Bool
  | .read _ => false
  | .write .. => true

/-- The calls that are not made again. -/
def settled (calls : List Delivery) : List Delivery :=
  calls.filter fun c => !c.isInterrupted

@[simp] theorem settled_append (calls more : List Delivery) :
    settled (calls ++ more) = settled calls ++ settled more :=
  List.filter_append ..

private theorem settled_of_interrupted {c : Delivery} (h : c.isInterrupted = true)
    (calls : List Delivery) : settled (c :: calls) = settled calls :=
  List.filter_cons_of_neg (by simp [h])

private theorem settled_singleton {c : Delivery} (h : c.isInterrupted = false) : settled [c] = [c] := by
  simp [settled, h]

/-- Of the calls of a kind, those that are interrupted are missing among the settled ones. -/
theorem countP_settled (kind : Delivery → Bool) (calls : List Delivery) :
    calls.countP kind =
      (settled calls).countP kind + calls.countP fun c => kind c && c.isInterrupted := by
  have hsplit := calls.countP_eq_countP_filter_add kind fun c => c.isInterrupted
  have hcount := List.countP_filter (p := kind) (q := fun c => c.isInterrupted) (l := calls)
  unfold settled
  omega

end Delivery

namespace Input

variable {i i' j : Input} {e : InputEvent}

theorem calls_of_call (h : i.call = (e, j)) : j.calls = i.calls + 1 := by
  obtain ⟨_ | ⟨first, rest⟩, standing, calls⟩ := i <;> obtain ⟨-, rfl⟩ := Prod.mk.inj h <;> rfl

private theorem events_of_call (h : i.call = (e, j)) : j.events = i.events.drop 1 := by
  obtain ⟨_ | ⟨first, rest⟩, standing, calls⟩ := i <;> obtain ⟨-, rfl⟩ := Prod.mk.inj h <;> rfl

/-- The input whose script has no interruptions. -/
def uninterrupted (i : Input) : Input :=
  { i with events := i.events.filter fun e => !e.isInterrupted }

/-- The second input has the script of the first without the interruptions. -/
structure Calmed (i i' : Input) : Prop where
  events : i'.events = i.events.filter fun e => !e.isInterrupted
  standing : i'.standing = i.standing

theorem calmed_uninterrupted (i : Input) : Calmed i i.uninterrupted :=
  ⟨rfl, rfl⟩

namespace Calmed

/-- An interrupted call on the first input is no call on the second. -/
theorem skip (h : Calmed i i') (hcall : i.call = (e, j)) (he : e.isInterrupted = true) :
    Calmed j i' := by
  obtain ⟨events, standing, calls⟩ := i
  cases events with
  | nil =>
    obtain ⟨rfl, -⟩ := Prod.mk.inj hcall
    cases standing with
    | none => cases he
    | some f => exact absurd he (by simp [afterwards, InputEvent.isInterrupted, f.property])
  | cons first rest =>
    obtain ⟨rfl, rfl⟩ := Prod.mk.inj hcall
    refine ⟨?_, h.standing⟩
    rw [h.events, List.filter_cons_of_neg (by simp [he])]

/-- Any other call meets the same on both. -/
theorem call (h : Calmed i i') (hcall : i.call = (e, j)) (he : e.isInterrupted = false) :
    ∃ j', i'.call = (e, j') ∧ Calmed j j' := by
  obtain ⟨events, standing, calls⟩ := i
  obtain ⟨events', standing', calls'⟩ := i'
  obtain ⟨hevents, hstanding⟩ := h
  simp only at hevents hstanding
  subst hevents hstanding
  cases events with
  | nil =>
    obtain ⟨rfl, rfl⟩ := Prod.mk.inj hcall
    exact ⟨_, rfl, rfl, rfl⟩
  | cons first rest =>
    obtain ⟨rfl, rfl⟩ := Prod.mk.inj hcall
    rw [List.filter_cons_of_pos (by simp [he])]
    exact ⟨_, rfl, rfl, rfl⟩

/-- Reading a byte gives the same on both inputs. -/
theorem readByte (h : Calmed i i') (o o' : Output) :
    i'.readByte.1 = i.readByte.1 ∧ Calmed i.readByte.2 i'.readByte.2 ∧
      ∃ calls, History i o calls i.readByte.2 o ∧
        History i' o' (Delivery.settled calls) i'.readByte.2 o' := by
  induction i using induction_on_calls with
  | step i ih =>
    obtain ⟨e, j, hcall⟩ : ∃ e j, i.call = (e, j) := ⟨_, _, rfl⟩
    rw [readByte_eq hcall]
    cases he : e.isInterrupted with
    | true =>
      obtain ⟨hresult, hcalmed, calls, hcalls, hsettled⟩ := ih e j hcall he (h.skip hcall he)
      have hagain : (Delivery.read e).isInterrupted = true := he
      refine ⟨hresult, hcalmed, .read e :: calls, .read hcall hcalls, ?_⟩
      rwa [Delivery.settled_of_interrupted hagain]
    | false =>
      obtain ⟨j', hcall', hcalmed⟩ := h.call hcall he
      rw [readByte_eq hcall', he]
      have hlast : (Delivery.read e).isInterrupted = false := he
      refine ⟨rfl, hcalmed, [.read e], .read hcall (.nil ..), ?_⟩
      rw [Delivery.settled_singleton hlast]
      exact .read hcall' (.nil ..)

end Calmed

/-- The first event that is no interruption decides what is read. -/
theorem readByte_of_find? {b : UInt8}
    (h : i.events.find? (fun e => !e.isInterrupted) = some (.byte b)) :
    i.readByte.1 = .ok (some b) := by
  rw [← List.head?_filter] at h
  obtain ⟨rest, hrest⟩ := List.head?_eq_some_iff.mp h
  have hcall : i.uninterrupted.call =
      (.byte b, { i.uninterrupted with events := rest, calls := i.calls + 1 }) := by
    simp only [call, uninterrupted, hrest]
  rw [← (i.calmed_uninterrupted.readByte {} {}).1, readByte_eq hcall]
  rfl

end Input

namespace Output

variable {o o' q : Output} {b : UInt8} {e : OutputEvent}

theorem calls_of_call (h : o.call b = (e, q)) : q.calls = o.calls + 1 := by
  obtain ⟨-, rfl⟩ := Prod.mk.inj h
  rfl

/-- The output whose script has no interruptions. -/
def uninterrupted (o : Output) : Output :=
  { o with events := o.events.filter fun e => !e.isInterrupted }

/-- The second output has the script of the first without the interruptions, and the same bytes. -/
structure Calmed (o o' : Output) : Prop where
  events : o'.events = o.events.filter fun e => !e.isInterrupted
  standing : o'.standing = o.standing
  written : o'.written = o.written

theorem calmed_uninterrupted (o : Output) : Calmed o o.uninterrupted :=
  ⟨rfl, rfl, rfl⟩

namespace Calmed

theorem skip (h : Calmed o o') (hcall : o.call b = (e, q)) (he : e.isInterrupted = true) :
    Calmed q o' := by
  obtain ⟨events, standing, flushRule, written, calls, flushes⟩ := o
  obtain ⟨rfl, rfl⟩ := Prod.mk.inj hcall
  cases events with
  | nil =>
    cases standing with
    | none => cases he
    | some f => exact absurd he (by simp [afterwards, OutputEvent.isInterrupted, f.property])
  | cons first rest =>
    cases first with
    | taken => cases he
    | refused => cases he
    | failed f =>
      refine ⟨?_, h.standing, h.written⟩
      rw [h.events, List.filter_cons_of_neg (by simp [he])]

theorem call (h : Calmed o o') (hcall : o.call b = (e, q)) (he : e.isInterrupted = false) :
    ∃ q', o'.call b = (e, q') ∧ Calmed q q' := by
  obtain ⟨events, standing, flushRule, written, calls, flushes⟩ := o
  obtain ⟨events', standing', flushRule', written', calls', flushes'⟩ := o'
  obtain ⟨hevents, hstanding, hwritten⟩ := h
  simp only at hevents hstanding hwritten
  subst hevents hstanding hwritten
  obtain ⟨rfl, rfl⟩ := Prod.mk.inj hcall
  cases events with
  | nil => exact ⟨_, rfl, rfl, rfl, rfl⟩
  | cons first rest =>
    rw [List.filter_cons_of_pos (by simpa using he)]
    exact ⟨_, rfl, rfl, rfl, rfl⟩

/-- Writing a byte ends in the same way on both outputs. -/
theorem writeByte (h : Calmed o o') (b : UInt8) (i i' : Input) :
    (o'.writeByte b).1 = (o.writeByte b).1 ∧ Calmed (o.writeByte b).2 (o'.writeByte b).2 ∧
      ∃ calls, History i o calls i (o.writeByte b).2 ∧
        History i' o' (Delivery.settled calls) i' (o'.writeByte b).2 := by
  induction o using induction_on_calls b with
  | step o ih =>
    obtain ⟨e, q, hcall⟩ : ∃ e q, o.call b = (e, q) := ⟨_, _, rfl⟩
    rw [writeByte_eq hcall]
    cases he : e.isInterrupted with
    | true =>
      obtain ⟨hresult, hcalmed, calls, hcalls, hsettled⟩ := ih e q hcall he (h.skip hcall he)
      have hagain : (Delivery.write b e).isInterrupted = true := he
      refine ⟨hresult, hcalmed, .write b e :: calls, .write hcall hcalls, ?_⟩
      rwa [Delivery.settled_of_interrupted hagain]
    | false =>
      obtain ⟨q', hcall', hcalmed⟩ := h.call hcall he
      rw [writeByte_eq hcall', he]
      have hlast : (Delivery.write b e).isInterrupted = false := he
      refine ⟨rfl, hcalmed, [.write b e], .write hcall (.nil ..), ?_⟩
      rw [Delivery.settled_singleton hlast]
      exact .write hcall' (.nil ..)

end Calmed

end Output

namespace History

variable {i i' : Input} {o o' : Output} {calls : List Delivery}

theorem calls_input (h : History i o calls i' o') :
    i'.calls = i.calls + calls.countP Delivery.isRead := by
  induction h with
  | nil => rfl
  | read first _ ih =>
    rw [ih, Input.calls_of_call first, List.countP_cons_of_pos rfl]
    omega
  | write _ _ ih => rw [ih, List.countP_cons_of_neg (by simp [Delivery.isRead])]

theorem calls_output (h : History i o calls i' o') :
    o'.calls = o.calls + calls.countP Delivery.isWrite := by
  induction h with
  | nil => rfl
  | read _ _ ih => rw [ih, List.countP_cons_of_neg (by simp [Delivery.isWrite])]
  | write first _ ih =>
    rw [ih, Output.calls_of_call first, List.countP_cons_of_pos rfl]
    omega

/-- Each read uses up one event of the script. -/
theorem events_input (h : History i o calls i' o') :
    i'.events = i.events.drop (calls.countP Delivery.isRead) := by
  induction h with
  | nil => rfl
  | read first _ ih =>
    rw [ih, Input.events_of_call first, List.countP_cons_of_pos rfl, List.drop_drop, Nat.add_comm]
  | write _ _ ih => rw [ih, List.countP_cons_of_neg (by simp [Delivery.isRead])]

end History

end TapeLang
