import TapeLang.Block.Evaluation
import TapeLang.Proofs.Transition

/-!
# Steps of the interpreter

On a tape whose pointer is on a cell, every instruction either acts on the world and goes on behind
itself, or looks at the current cell and jumps.
-/

namespace TapeLang

namespace Tape

/-- The pointer is on a cell. -/
def OnCell (t : Tape) : Prop :=
  t.pointer < t.capacity

theorem OnCell.get? {t : Tape} (h : t.OnCell) : ∃ b, t.get? = some b :=
  ⟨_, Array.getElem?_eq_getElem h⟩

theorem OnCell.set {t : Tape} (h : t.OnCell) (b : UInt8) : (t.set b).OnCell := by
  simpa [OnCell] using h

theorem OnCell.add {t : Tape} (h : t.OnCell) (d : Int8) : (t.add d).OnCell := by
  simpa [OnCell] using h

/-- A move that succeeds changes the pointer only, and leaves it on a cell. -/
theorem move?_eq_some {t u : Tape} {d : Int64} (h : t.move? d = some u) :
    u.cells = t.cells ∧ u.OnCell := by
  unfold move? at h
  split at h
  next => simp at h
  next next _ =>
    split at h
    next inside =>
      obtain rfl := Option.some.inj h
      exact ⟨rfl, inside⟩
    next => simp at h

/-- A move succeeds exactly if it stays on the tape. -/
theorem move?_eq_ite {t : Tape} (h : t.capacity ≤ wordLimit) (d : Int64) :
    t.move? d =
      if 0 ≤ t.pointer + d.toInt ∧ t.pointer + d.toInt < t.capacity then
        some ⟨t.cells, (t.pointer + d.toInt).toNat⟩
      else none := by
  split
  next inside => exact (move?_eq_some_iff h).mpr ⟨_, by omega, by omega, rfl⟩
  next outside =>
    cases hmove : t.move? d with
    | none => rfl
    | some u =>
      obtain ⟨next, hnext, hlt, -⟩ := (move?_eq_some_iff h).mp hmove
      omega

/-- The same for a move of one instruction. -/
theorem move?_eq {t : Tape} (h : t.capacity ≤ wordLimit) (d : Int8) :
    t.move? d.toInt64 =
      if 0 ≤ t.pointer + d.toInt ∧ t.pointer + d.toInt < t.capacity then
        some ⟨t.cells, (t.pointer + d.toInt).toNat⟩
      else none := by
  rw [move?_eq_ite h, Int8.toInt_toInt64]

theorem add_eq_set {t : Tape} {b : UInt8} (h : t.get? = some b) (d : Int8) :
    t.add d = t.set (b + d.toUInt8) := by
  obtain ⟨cells, pointer⟩ := t
  obtain ⟨hlt, rfl⟩ := Array.getElem?_eq_some_iff.mp h
  simp only [Tape.add, Tape.set, Tape.mk.injEq, and_true]
  apply Array.ext_getElem?
  intro k
  rw [Array.getElem?_modify, Array.getElem?_setIfInBounds]
  by_cases hp : pointer = k
  · subst hp
    simp [show pointer < cells.size from hlt]
  · simp [hp]

theorem add_zero (t : Tape) : t.add 0 = t := by
  obtain ⟨cells, pointer⟩ := t
  have hid : (fun x : UInt8 => x + (0 : Int8).toUInt8) = id := funext fun x => UInt8.add_zero x
  simp only [Tape.add, Tape.mk.injEq, and_true, hid]
  apply Array.ext_getElem?
  intro k
  rw [Array.getElem?_modify]
  split <;> simp

end Tape

private theorem Output.flushes_writeByte (o : Output) (b : UInt8) :
    (o.writeByte b).2.flushes = o.flushes := by
  simp only [writeByte]
  split
  next => split <;> rfl
  all_goals rfl

/-- The state of an interpreter in a world, before the instruction at `cursor`. -/
def World.at (w : World) (cursor : Nat) : Interpreter.State :=
  ⟨w.tape, cursor, w.input, w.output⟩

def Interpreter.State.world (s : Interpreter.State) : World :=
  ⟨s.tape, s.input, s.output⟩

@[simp] theorem World.world_at (w : World) (cursor : Nat) : (w.at cursor).world = w := rfl

@[simp] theorem World.cursor_at (w : World) (cursor : Nat) : (w.at cursor).cursor = cursor := rfl

namespace Action

variable {policy : EndOfInput} {index : Nat} {a : Action} {w w' : World} {stop : Option Fault}

theorem onCell_receive {t : Tape} (h : t.OnCell) (b? : Option UInt8) :
    (receive policy t b?).OnCell := by
  unfold receive
  split
  case h_3 => exact h
  all_goals exact h.set _

theorem onCell_perform (h : w.tape.OnCell) (hp : a.perform policy index w = (stop, w')) :
    w'.tape.OnCell := by
  cases a with
  | move d =>
    simp only [perform] at hp
    split at hp
    next tape moved =>
      obtain ⟨-, rfl⟩ := Prod.mk.inj hp
      exact (Tape.move?_eq_some moved).2
    next =>
      obtain ⟨-, rfl⟩ := Prod.mk.inj hp
      exact h
  | add d =>
    obtain ⟨-, rfl⟩ := Prod.mk.inj hp
    exact h.add d
  | input =>
    simp only [perform] at hp
    split at hp <;> obtain ⟨-, rfl⟩ := Prod.mk.inj hp
    · exact onCell_receive h _
    · exact h
  | output =>
    simp only [perform] at hp
    split at hp <;> obtain ⟨-, rfl⟩ := Prod.mk.inj hp <;> exact h

theorem capacity_receive (policy : EndOfInput) (t : Tape) (b? : Option UInt8) :
    (receive policy t b?).capacity = t.capacity := by
  cases b? <;> cases policy <;> simp [receive]

end Action

namespace Interpreter

variable {p : Program} {policy : EndOfInput} {s t : State} {e : Ending}

/-- The state after a step, if the step does not end the run. -/
def advance? (p : Program) (policy : EndOfInput) (s : State) : Option State :=
  match step p policy s with
  | .next s => some s
  | .stop .. => none

theorem advance?_eq_some : advance? p policy s = some t ↔ step p policy s = .next t := by
  unfold advance?
  cases step p policy s <;> simp

theorem advance?_eq_none : advance? p policy s = none ↔ ∃ e t, step p policy s = .stop e t := by
  unfold advance?
  cases step p policy s <;> simp

/-- How a step that ends the run ends it. -/
def stopped? (p : Program) (policy : EndOfInput) (s : State) : Option (Ending × State) :=
  match step p policy s with
  | .next _ => none
  | .stop e s => some (e, s)

/-- A run ends within some fuel exactly when steps lead to one that stops. -/
theorem runFrom_eq_some_iff {t' : State} :
    (∃ fuel, runFrom p policy fuel s = some (e, t')) ↔
      ∃ n t, Transition.Reaches (advance? p policy) n s t ∧ step p policy t = .stop e t' := by
  have goes : ∀ fuel s t, advance? p policy s = some t →
      runFrom p policy (fuel + 1) s = runFrom p policy fuel t := by
    intro fuel s t h
    simp only [runFrom, advance?_eq_some.mp h]
  have stops : ∀ fuel s, advance? p policy s = none →
      runFrom p policy (fuel + 1) s = stopped? p policy s := by
    intro fuel s h
    obtain ⟨e, t, hstep⟩ := advance?_eq_none.mp h
    simp only [runFrom, stopped?, hstep]
  have hlast : ∀ t, advance? p policy t = none ∧ stopped? p policy t = some (e, t') ↔
      step p policy t = .stop e t' := by
    intro t
    unfold advance? stopped?
    cases step p policy t <;> simp
  simpa only [hlast] using
    Transition.exists_fuel_iff (s := s) (r := (e, t')) (fun _ => rfl) goes stops

/-- A run that comes to a stop has ended with any larger fuel. -/
theorem runFrom_of_reaches {n fuel : Nat} {t' : State}
    (h : Transition.Reaches (advance? p policy) n s t) (stopped : step p policy t = .stop e t')
    (enough : n < fuel) : runFrom p policy fuel s = some (e, t') := by
  induction h generalizing fuel with
  | refl s =>
    obtain ⟨fuel, rfl⟩ := Nat.exists_eq_add_of_lt enough
    simp only [runFrom, stopped]
  | step first _ ih =>
    cases fuel with
    | zero => omega
    | succ fuel =>
      simp only [runFrom, advance?_eq_some.mp first]
      exact ih stopped (by omega)

theorem step_of_get? {i : Instruction} (h : p.get? s.cursor = some i) :
    step p policy s = execute policy i s := by
  simp [step, h]

theorem step_of_none (h : p.get? s.cursor = none) : step p policy s = .stop .finished s := by
  simp [step, h]

/-- What the instruction of an action does. -/
def acted (cursor : Nat) : Option Fault × World → Step
  | (none, w) => .next (w.at (cursor + 1))
  | (some f, w) => .stop (.faulted f) (w.at cursor)

theorem execute_action {a : Action} (h : s.tape.OnCell) :
    execute policy a.instruction s = acted s.cursor (a.perform policy s.cursor s.world) := by
  have inside : s.tape.pointer < s.tape.cells.size := h
  obtain ⟨tape, cursor, input, output⟩ := s
  cases a with
  | move d =>
    simp only [Action.instruction, execute, Action.perform, State.world]
    cases tape.move? d.toInt64 <;> rfl
  | add d =>
    simp only [Action.instruction, execute, Action.perform, State.world, inside, if_true]
    rfl
  | input =>
    simp only [Action.instruction, execute, readCell, Action.perform, State.world]
    rcases input.readByte with ⟨f | b?, left⟩
    · rfl
    · cases b? with
      | some b => simp [Action.receive, inside, acted, World.at]
      | none =>
        cases policy <;>
          simp [EndOfInput.value?, Action.receive, inside, acted, World.at]
  | output =>
    obtain ⟨b, hb⟩ := h.get?
    simp only [Action.instruction, execute, writeCell, Action.perform, State.world, hb,
      Option.getD_some]
    rcases output.writeByte b with ⟨f | u, left⟩ <;> rfl

theorem execute_loopOpen {b : UInt8} {target : Nat} (h : s.tape.get? = some b) :
    execute policy (.loopOpen target) s =
      .next (s.world.at (if b = 0 then target else s.cursor + 1)) := by
  simp [execute, jumpIf, h, World.at, State.world]

theorem execute_loopClose {b : UInt8} {target : Nat} (h : s.tape.get? = some b) :
    execute policy (.loopClose target) s =
      .next (s.world.at (if b = 0 then s.cursor + 1 else target)) := by
  simp [execute, jumpIf, h, World.at, State.world]

/-- An instruction that is not the end of a loop comes from an action. -/
theorem instruction_cases (i : Instruction) :
    (∃ a : Action, i = a.instruction) ∨ (∃ t, i = .loopOpen t) ∨ ∃ t, i = .loopClose t := by
  cases i with
  | move d => exact .inl ⟨.move d, rfl⟩
  | add d => exact .inl ⟨.add d, rfl⟩
  | input => exact .inl ⟨.input, rfl⟩
  | output => exact .inl ⟨.output, rfl⟩
  | loopOpen t => exact .inr (.inl ⟨t, rfl⟩)
  | loopClose t => exact .inr (.inr ⟨t, rfl⟩)

/-- What a step on a cell can be: the end of the program, an action, or a jump. -/
theorem step_cases (policy : EndOfInput) (h : s.tape.OnCell) :
    (p.get? s.cursor = none ∧ step p policy s = .stop .finished s) ∨
      (∃ a : Action, p.get? s.cursor = some a.instruction ∧
        step p policy s = acted s.cursor (a.perform policy s.cursor s.world)) ∨
      ∃ i target c, p.get? s.cursor = some i ∧ i.target? = some target ∧
        step p policy s = .next (s.world.at c) := by
  cases hi : p.get? s.cursor with
  | none => exact .inl ⟨rfl, step_of_none hi⟩
  | some i =>
    obtain ⟨b, hb⟩ := h.get?
    rcases instruction_cases i with ⟨a, rfl⟩ | ⟨target, rfl⟩ | ⟨target, rfl⟩
    · exact .inr (.inl ⟨a, rfl, (step_of_get? hi).trans (execute_action h)⟩)
    · exact .inr (.inr ⟨_, target, _, rfl, rfl, (step_of_get? hi).trans (execute_loopOpen hb)⟩)
    · exact .inr (.inr ⟨_, target, _, rfl, rfl, (step_of_get? hi).trans (execute_loopClose hb)⟩)

/-! What runs keep. -/

/-- The state behind a step. -/
def Step.state : Step → State
  | .next s => s
  | .stop _ s => s

/-- Two states with tapes of one size and as many flushes. -/
structure Kept (s t : State) : Prop where
  capacity : t.tape.capacity = s.tape.capacity
  flushes : t.output.flushes = s.output.flushes

private theorem kept_readCell (policy : EndOfInput) (s : State) : Kept s (readCell policy s).state := by
  obtain ⟨tape, cursor, input, output⟩ := s
  simp only [readCell]
  split
  next => exact ⟨rfl, rfl⟩
  next =>
    split
    next => exact ⟨rfl, rfl⟩
    next b _ =>
      split
      next => exact ⟨Tape.capacity_set tape b, rfl⟩
      next => exact ⟨rfl, rfl⟩

private theorem kept_writeCell (s : State) : Kept s (writeCell s).state := by
  obtain ⟨tape, cursor, input, output⟩ := s
  simp only [writeCell]
  split
  next => exact ⟨rfl, rfl⟩
  next b _ =>
    have hflushes := output.flushes_writeByte b
    split
    next hwrite =>
      rw [hwrite] at hflushes
      exact ⟨rfl, hflushes⟩
    next hwrite =>
      rw [hwrite] at hflushes
      exact ⟨rfl, hflushes⟩

private theorem kept_jumpIf (test : UInt8 → Bool) (target : Nat) (s : State) :
    Kept s (jumpIf test target s).state := by
  obtain ⟨tape, cursor, input, output⟩ := s
  simp only [jumpIf]
  split <;> exact ⟨rfl, rfl⟩

theorem kept_execute (policy : EndOfInput) (i : Instruction) (s : State) :
    Kept s (execute policy i s).state := by
  cases i with
  | move d =>
    simp only [execute]
    split
    next tape moved => exact ⟨congrArg Array.size (Tape.move?_eq_some moved).1, rfl⟩
    next => exact ⟨rfl, rfl⟩
  | add d =>
    simp only [execute]
    split
    next => exact ⟨Tape.capacity_add s.tape d, rfl⟩
    next => exact ⟨rfl, rfl⟩
  | input => exact kept_readCell policy s
  | output => exact kept_writeCell s
  | loopOpen target => exact kept_jumpIf _ target s
  | loopClose target => exact kept_jumpIf _ target s

theorem kept_step (p : Program) (policy : EndOfInput) (s : State) :
    Kept s (step p policy s).state := by
  unfold step
  split
  next => exact ⟨rfl, rfl⟩
  next i _ => exact kept_execute policy i s

/-- A run keeps the size of the tape and does not flush. -/
theorem kept_runFrom {fuel : Nat} (h : runFrom p policy fuel s = some (e, t)) : Kept s t := by
  induction fuel generalizing s with
  | zero => cases h
  | succ fuel ih =>
    have hstep := kept_step p policy s
    unfold runFrom at h
    split at h
    next u hnext =>
      rw [hnext] at hstep
      have hrest := ih h
      exact ⟨hrest.capacity.trans hstep.capacity, hrest.flushes.trans hstep.flushes⟩
    next hstop =>
      obtain ⟨rfl, rfl⟩ := Prod.mk.inj (Option.some.inj h)
      rw [hstop] at hstep
      exact hstep

end Interpreter

end TapeLang
