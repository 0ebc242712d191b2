import TapeLang.Proofs.Interpreter.Lockstep

/-!
# Outputs that fail

A write that fails ends the run and has no other effect. So a run on any output is the run on an output that
takes every byte, or the beginning of it up to an output instruction: the bytes written are the first ones
that run writes, and tape and input are as they are there.
-/

namespace TapeLang

open Transition

namespace Output

variable {o q : Output} {b : UInt8}

private theorem written_of_ok (h : o.writeByte b = (.ok (), q)) : q.written = o.written.push b := by
  obtain ⟨events, standing, flushRule, written, calls, flushes⟩ := o
  simp only [writeByte] at h
  split at h
  next =>
    split at h
    next => obtain ⟨-, rfl⟩ := Prod.mk.inj h; rfl
    next => cases h
  next => obtain ⟨-, rfl⟩ := Prod.mk.inj h; rfl
  next => cases h
  next => cases h

private theorem written_of_error {f : Failure} (h : o.writeByte b = (.error f, q)) :
    q.written = o.written := by
  obtain ⟨events, standing, flushRule, written, calls, flushes⟩ := o
  simp only [writeByte] at h
  split at h
  next =>
    split at h
    next => cases h
    next => obtain ⟨-, rfl⟩ := Prod.mk.inj h; rfl
  next => cases h
  next => obtain ⟨-, rfl⟩ := Prod.mk.inj h; rfl
  next => obtain ⟨-, rfl⟩ := Prod.mk.inj h; rfl

/-- The output on which every write succeeds from now on. -/
def unhindered (o : Output) : Output :=
  { o with events := [], standing := none }

/-- Every write succeeds. -/
structure Willing (o : Output) : Prop where
  events : o.events = []
  standing : o.standing = none

theorem Willing.writeByte (h : o.Willing) (b : UInt8) :
    ∃ q, o.writeByte b = (.ok (), q) ∧ q.Willing := by
  obtain ⟨events, standing, flushRule, written, calls, flushes⟩ := o
  obtain ⟨rfl, rfl⟩ := h
  exact ⟨_, rfl, rfl, rfl⟩

end Output

namespace Action

variable {policy : EndOfInput} {index : Nat} {a : Action} {w w' : World}

/-- The bytes an action writes when it goes on. -/
def bytes (w : World) : Action → List UInt8
  | .output => [w.tape.get?.getD 0]
  | _ => []

theorem written_of_perform (h : a.perform policy index w = (none, w')) :
    w'.output.written.toList = w.output.written.toList ++ a.bytes w := by
  cases a with
  | move d =>
    simp only [perform] at h
    split at h <;> obtain ⟨hstop, rfl⟩ := Prod.mk.inj h
    · simp [bytes]
    · cases hstop
  | add d =>
    obtain ⟨-, rfl⟩ := Prod.mk.inj h
    simp [bytes]
  | input =>
    simp only [perform] at h
    split at h <;> obtain ⟨hstop, rfl⟩ := Prod.mk.inj h
    · simp [bytes]
    · cases hstop
  | output =>
    simp only [perform] at h
    split at h
    next left hwrite =>
      obtain ⟨-, rfl⟩ := Prod.mk.inj h
      simp [bytes, Output.written_of_ok hwrite]
    next => cases h

theorem written_of_stopped {f : Fault} (h : a.perform policy index w = (some f, w')) :
    w'.output.written = w.output.written := by
  cases a with
  | move d =>
    simp only [perform] at h
    split at h <;> obtain ⟨-, rfl⟩ := Prod.mk.inj h <;> rfl
  | add d => cases h
  | input =>
    simp only [perform] at h
    split at h <;> obtain ⟨-, rfl⟩ := Prod.mk.inj h <;> rfl
  | output =>
    simp only [perform] at h
    split at h
    next => cases h
    next f left hwrite =>
      obtain ⟨-, rfl⟩ := Prod.mk.inj h
      exact Output.written_of_error hwrite

end Action

namespace Interpreter

variable {p : Program} {policy : EndOfInput} {n : Nat} {s t : State} {e : Ending}

/-- The instructions of the first `n` steps. -/
def executed (p : Program) (policy : EndOfInput) : Nat → State → List Instruction
  | 0, _ => []
  | n + 1, s =>
    match advance? p policy s with
    | none => []
    | some t => (p.get? s.cursor).toList ++ executed p policy n t

/-- A step that goes on writes a byte exactly if it is an output. -/
theorem written_of_advance? (onCell : s.tape.OnCell) (moved : advance? p policy s = some t) :
    t.tape.OnCell ∧ ∃ bytes, t.output.written.toList = s.output.written.toList ++ bytes ∧
      bytes.length = (p.get? s.cursor).toList.count .output := by
  rw [advance?_eq_some] at moved
  rcases step_cases policy onCell with ⟨-, hstep⟩ | ⟨a, ha, hstep⟩ | ⟨i, target, c, hi, htarget, hstep⟩
  · rw [hstep] at moved
    cases moved
  · rcases hp : a.perform policy s.cursor s.world with ⟨_ | f, w⟩
    · rw [hstep, hp] at moved
      obtain rfl := Step.next.inj moved
      refine ⟨Action.onCell_perform (w := s.world) onCell hp, a.bytes s.world,
        Action.written_of_perform hp, ?_⟩
      rw [ha]
      cases a <;> rfl
    · rw [hstep, hp] at moved
      cases moved
  · rw [hstep] at moved
    obtain rfl := Step.next.inj moved
    refine ⟨onCell, [], by simp [World.at, State.world], ?_⟩
    rw [hi]
    cases i with
    | loopOpen => rfl
    | loopClose => rfl
    | _ => cases htarget

/-- As many bytes are written as outputs are executed, behind those that were there. -/
theorem written_of_reaches (onCell : s.tape.OnCell) (h : Reaches (advance? p policy) n s t) :
    ∃ bytes, t.output.written.toList = s.output.written.toList ++ bytes ∧
      bytes.length = (executed p policy n s).count .output := by
  induction h with
  | refl => exact ⟨[], by simp [executed]⟩
  | step first _ ih =>
    obtain ⟨onCell', bytes, hfirst, hlength⟩ := written_of_advance? onCell first
    obtain ⟨more, htail, hmore⟩ := ih onCell'
    refine ⟨bytes ++ more, ?_, ?_⟩
    · rw [htail, hfirst, List.append_assoc]
    · simp only [executed, first, List.length_append, List.count_append, hlength, hmore]

/-- A step that ends the run writes nothing. -/
theorem written_of_stop (onCell : s.tape.OnCell) (stopped : step p policy s = .stop e t) :
    t.output.written = s.output.written := by
  rcases step_cases policy onCell with ⟨-, hstep⟩ | ⟨a, -, hstep⟩ | ⟨i, target, c, -, -, hstep⟩
  · obtain ⟨-, rfl⟩ := Step.stop.inj (hstep.symm.trans stopped)
    rfl
  · rcases hp : a.perform policy s.cursor s.world with ⟨_ | f, w⟩
    · rw [hstep, hp] at stopped
      cases stopped
    · rw [hstep, hp] at stopped
      obtain ⟨-, rfl⟩ := Step.stop.inj stopped
      exact Action.written_of_stopped hp
  · rw [hstep] at stopped
    cases stopped

end Interpreter

/-- The second world is the first with an output that takes every byte. -/
structure Freed (w w' : World) : Prop where
  onCell : w.tape.OnCell
  tape : w'.tape = w.tape
  input : w'.input = w.input
  written : w'.output.written = w.output.written
  willing : w'.output.Willing

/-- The action is a write that fails. -/
def Action.FailsToWrite (a : Action) (w : World) : Prop :=
  a = .output ∧ ∃ f q, w.output.writeByte (w.tape.get?.getD 0) = (.error f, q)

theorem lockstep_freed (policy : EndOfInput) :
    Lockstep policy Freed (fun a w _ => a.FailsToWrite w) := by
  refine .of_channels (fun h => h.onCell) (fun h => h.tape) ?_ ?_ ?_
  · intro w w' t h onCell
    exact ⟨onCell, rfl, h.input, h.written, h.willing⟩
  · intro w w' h
    have hread : w'.input.readByte = w.input.readByte := congrArg Input.readByte h.input
    exact ⟨congrArg Prod.fst hread, h.onCell, h.tape, congrArg Prod.snd hread, h.written, h.willing⟩
  · intro w w' b h hb
    obtain ⟨q', hwrite', willing⟩ := h.willing.writeByte b
    rcases hwrite : w.output.writeByte b with ⟨f | u, q⟩
    · exact .inl ⟨rfl, f, q, by rwa [hb]⟩
    · have hwritten : q'.written = q.written := by
        rw [Output.written_of_ok hwrite', Output.written_of_ok hwrite, h.written]
      rw [hwrite']
      exact .inr ⟨rfl, h.onCell, h.tape, h.input, hwritten, willing⟩

namespace Interpreter

variable {p : Program} {policy : EndOfInput}

/-- The run from `start` is cut short where the run from `free` goes on: having written `bytes`, it fails at
the next output instruction, with which the other run writes `b`. -/
structure CutShort (p : Program) (policy : EndOfInput) (start free : State) (bytes : List UInt8)
    (b : UInt8) (n : Nat) (s : State) (f : Failure) (left : Output) : Prop where
  /-- After `n` steps the run has executed an output for each byte, and is at the next one. -/
  reaches : Reaches (advance? p policy) n start s
  outputs : (executed p policy n start).count .output = bytes.length
  instruction : p.get? s.cursor = some .output
  /-- There it ends, and only the output has changed. -/
  ends : runFrom p policy (n + 1) start = some (.faulted (.channel f), { s with output := left })
  written : left.written.toList = start.output.written.toList ++ bytes
  /-- The other run comes to the same place with the same tape and input, and writes on. -/
  along : ∃ q, Reaches (advance? p policy) n free { s with output := q } ∧
    q.written.toList = free.output.written.toList ++ bytes
  onward : ∃ t, Reaches (advance? p policy) (n + 1) free t ∧
    t.output.written.toList = free.output.written.toList ++ bytes ++ [b]
  /-- What it has written then is not taken back, and so begins with `bytes`. -/
  later : ∀ m t, n < m → Reaches (advance? p policy) m free t →
    free.output.written.toList ++ bytes ++ [b] <+: t.output.written.toList
  atEnd : ∀ fuel e t, runFrom p policy fuel free = some (e, t) →
    free.output.written.toList ++ bytes ++ [b] <+: t.output.written.toList

theorem onCell_of_reaches {n : Nat} {s t : State} (onCell : s.tape.OnCell)
    (h : Reaches (advance? p policy) n s t) : t.tape.OnCell :=
  h.preserves (P := fun s => s.tape.OnCell)
    (fun _ _ hs moved => (written_of_advance? hs moved).1) onCell

/-- What is written at some point of a run is written at every later one, and at the end. -/
theorem written_prefix {n : Nat} {s t : State} (onCell : s.tape.OnCell)
    (h : Reaches (advance? p policy) n s t) :
    (∀ m u, n ≤ m → Reaches (advance? p policy) m s u →
      t.output.written.toList <+: u.output.written.toList) ∧
    ∀ fuel e u, runFrom p policy fuel s = some (e, u) →
      t.output.written.toList <+: u.output.written.toList := by
  have onCell' := onCell_of_reaches onCell h
  constructor
  · intro m u hm hreach
    obtain ⟨k, rfl⟩ := Nat.exists_eq_add_of_le hm
    obtain ⟨more, hmore, -⟩ := written_of_reaches onCell' (hreach.drop h)
    exact ⟨more, hmore.symm⟩
  · intro fuel e u hrun
    obtain ⟨m, v, hreach, hstop⟩ := runFrom_eq_some_iff.mp ⟨fuel, hrun⟩
    obtain ⟨k, -, hrest⟩ := hreach.resume (advance?_eq_none.mpr ⟨e, u, hstop⟩) h
    obtain ⟨more, hmore, -⟩ := written_of_reaches onCell' hrest
    rw [written_of_stop (onCell_of_reaches onCell' hrest) hstop]
    exact ⟨more, hmore.symm⟩

/-- Where the runs part, the first is cut short. -/
theorem cutShort_of_parted {w w' : World} (start : Freed w w') {fuel : Nat}
    (h : Lockstep.Parted p policy Freed (fun a w _ => a.FailsToWrite w) fuel (w.at 0) (w'.at 0)) :
    ∃ bytes b n s f left, CutShort p policy (w.at 0) (w'.at 0) bytes b n s f left := by
  obtain ⟨n, -, a, v, v', c, hreach, hreach', ha, hv, rfl, f, left, hwrite⟩ := h
  have onCell : (w.at 0).tape.OnCell := start.onCell
  have onCell' : (w'.at 0).tape.OnCell := (lockstep_freed policy).onCell_right start
  obtain ⟨bytes, hbytes, hlength⟩ := written_of_reaches onCell hreach
  have hbytes' : v'.output.written.toList = w'.output.written.toList ++ bytes := by
    rw [hv.written, start.written]
    exact hbytes
  -- The write that fails in the one run succeeds in the other.
  have hfails : step p policy (v.at c) =
      .stop (.faulted (.channel f)) { v.at c with output := left } := by
    rw [step_of_get? ha, execute_action hv.onCell]
    simp only [Action.perform, World.world_at, hwrite]
    rfl
  obtain ⟨q, hwrite', -⟩ := hv.willing.writeByte (v'.tape.get?.getD 0)
  have hwrites : step p policy (v'.at c) = .next ({ v' with output := q }.at (c + 1)) := by
    rw [step_of_get? ha, execute_action ((lockstep_freed policy).onCell_right hv)]
    simp only [Action.perform, World.world_at, hwrite']
    rfl
  have honward := hreach'.trans (.single (advance?_eq_some.mpr hwrites))
  have hq : q.written.toList = w'.output.written.toList ++ bytes ++ [v'.tape.get?.getD 0] := by
    rw [Output.written_of_ok hwrite', Array.toList_push, hbytes']
  obtain ⟨hlater, hatEnd⟩ := written_prefix onCell' honward
  refine ⟨bytes, v'.tape.get?.getD 0, n, v.at c, f, left, ?_⟩
  exact {
    reaches := hreach
    outputs := hlength.symm
    instruction := ha
    ends := runFrom_of_reaches hreach hfails n.lt_succ_self
    written := by
      rw [Output.written_of_error hwrite]
      exact hbytes
    along := by
      refine ⟨v'.output, ?_, hbytes'⟩
      have hplace : v'.at c = { v.at c with output := v'.output } := by
        rw [World.at, hv.tape, hv.input]
        rfl
      rwa [hplace] at hreach'
    onward := ⟨_, honward, hq⟩
    later := fun m t hm ht => hq ▸ hlater m t hm ht
    atEnd := fun fuel e t ht => hq ▸ hatEnd fuel e t ht }

/-- A failing output only cuts a run short. The run ends, if at all, as the run on an output that takes every
byte, with the same tape, the same input and the same bytes; or it ends with a failure at some output
instruction, up to which both runs are the same. -/
theorem run_failing_output {tape : Tape} (onCell : tape.pointer < tape.capacity) (p : Program)
    (policy : EndOfInput) (input : Input) (output : Output) :
    (∀ fuel, Lockstep.SameResult Freed (run fuel p policy tape input output)
      (run fuel p policy tape input output.unhindered)) ∨
    ∃ bytes b n s f left, CutShort p policy ⟨tape, 0, input, output⟩
      ⟨tape, 0, input, output.unhindered⟩ bytes b n s f left := by
  let w : World := ⟨tape, input, output⟩
  let w' : World := ⟨tape, input, output.unhindered⟩
  have start : Freed w w' := ⟨onCell, rfl, rfl, rfl, rfl, rfl⟩
  by_cases h : ∃ fuel, Lockstep.Parted p policy Freed (fun a w _ => a.FailsToWrite w) fuel
      (w.at 0) (w'.at 0)
  · obtain ⟨fuel, parted⟩ := h
    exact .inr (cutShort_of_parted start parted)
  · left
    intro fuel
    rcases (lockstep_freed policy).run start p fuel with same | parted
    · exact same
    · exact absurd ⟨fuel, parted⟩ h

/-- The third of three bytes cannot be written. -/
theorem run_failing_output_third :
    let p : Program := ⟨#[.add 1, .output, .add 1, .output, .add 1, .output]⟩
    let output : Output :=
      { events := [.taken, .failed (.ofErrno 4), .taken, .failed (.ofKind .brokenPipe)] }
    ∃ n s f left, CutShort p .zero ⟨.new 1, 0, {}, output⟩ ⟨.new 1, 0, {}, output.unhindered⟩
      [1, 2] 3 n s f left := by
  intro p output
  have onCell : (Tape.new 1).pointer < (Tape.new 1).capacity := by decide
  have hrun : run 6 p .zero (.new 1) {} output = some (.faulted (.channel (.ofKind .brokenPipe)),
      ⟨⟨#[3], 0⟩, 5, {}, { written := #[1, 2], calls := 4 }⟩) := by decide
  have hfree : run 7 p .zero (.new 1) {} output.unhindered = some (.finished,
      ⟨⟨#[3], 0⟩, 6, {}, { written := #[1, 2, 3], calls := 3 }⟩) := by decide
  rcases run_failing_output onCell p .zero {} output with same | ⟨bytes, b, n, s, f, left, cut⟩
  · have hsame := same 6
    rw [hrun] at hsame
    obtain ⟨w', hfree', -⟩ := hsame.of_some
    cases runFrom_unique hfree' hfree
  · have hleft : left = { written := #[1, 2], calls := 4 } :=
      congrArg (fun r => r.2.output) (runFrom_unique cut.ends hrun)
    obtain rfl : bytes = [1, 2] := by
      have := cut.written
      rw [hleft] at this
      exact this.symm
    obtain ⟨more, hmore⟩ := cut.atEnd _ _ _ hfree
    obtain rfl : b = 3 := by
      have hcons : [1, 2, b] ++ more = [1, 2, 3] := hmore
      simp only [List.cons_append, List.nil_append, List.cons.injEq, true_and] at hcons
      exact hcons.1
    exact ⟨n, s, f, left, cut⟩

end Interpreter

end TapeLang
