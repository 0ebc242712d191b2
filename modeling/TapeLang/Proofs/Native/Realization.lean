import TapeLang.Proofs.Native.Fragments

/-!
# Systems that run generated code

A system realizes a program if it runs the code of fragments, and if its environment reads, writes,
notes refused moves and leaves as the interpreter does. Then it simulates the interpreter.
-/

namespace TapeLang.Native

open X86 Assembly Transition

/-- `stands xs w v`: the system in state `v` is about to run the items `xs` in the world `w`.
`stopped e w v`: it has ended in the world `w` with the ending `e`. -/
structure Realization {τ : Type} (f : Frame) (is : List Instruction) (L : Loaded) (base : UInt64)
    (next? : τ → Option τ) (stands : List (Item Label) → World → τ → Prop)
    (stopped : Ending → World → τ → Prop) : Prop where
  compiled : Compiled f is L
  onCell : ∀ {xs w v}, stands xs w v → w.tape.OnCell
  stop : ∀ {e w v}, stopped e w v → next? v = none
  /-- The processor runs fragments. -/
  lead : ∀ {k xs ys w v} {t : Tape}, stands xs w v → t.capacity = w.tape.capacity →
    (∀ c, Holds base w.tape c → Arrives L base k xs c ys t) →
    ∃ n v', k ≤ n ∧ Reaches next? n v v' ∧ stands ys { w with tape := t } v'
  read : ∀ {index w v b?} {left : Input}, is[index]? = some .input → stands (f.tail is index) w v →
    w.input.readByte = (.ok b?, left) →
    ∃ n v', Reaches next? n v v' ∧
      stands (f.tail is (index + 1)) ⟨Action.receive f.policy w.tape b?, left, w.output⟩ v'
  readFailed : ∀ {index w v e} {left : Input}, is[index]? = some .input →
    stands (f.tail is index) w v → w.input.readByte = (.error e, left) →
    ∃ n v', Reaches next? n v v' ∧ stopped (.faulted (.channel e)) { w with input := left } v'
  write : ∀ {index w v b} {left : Output}, is[index]? = some .output →
    stands (f.tail is index) w v → w.tape.get? = some b → w.output.writeByte b = (.ok (), left) →
    ∃ n v', Reaches next? n v v' ∧ stands (f.tail is (index + 1)) { w with output := left } v'
  writeFailed : ∀ {index w v b e} {left : Output}, is[index]? = some .output →
    stands (f.tail is index) w v → w.tape.get? = some b → w.output.writeByte b = (.error e, left) →
    ∃ n v', Reaches next? n v v' ∧ stopped (.faulted (.channel e)) { w with output := left } v'
  refused : ∀ {s : Site} {rest w v}, s.index < is.length →
    stands ((f.record s).1 ++ .jump f.bounds :: rest) w v →
    ∃ n v', Reaches next? n v v' ∧ stopped (.faulted (.outOfTape s.index w.tape.pointer)) w v'
  finished : ∀ {w v}, stands (f.tail is is.length) w v →
    ∃ n v', Reaches next? n v v' ∧ stopped .finished w v'

namespace Realization

variable {τ : Type} {f : Frame} {p : Program} {policy : EndOfInput} {L : Loaded} {base : UInt64}
  {next? : τ → Option τ} {stands : List (Item Label) → World → τ → Prop}
  {stopped : Ending → World → τ → Prop}

open Interpreter

/-- The system is about to run the instruction at the interpreter's cursor. -/
def Follows (f : Frame) (p : Program) (stands : List (Item Label) → World → τ → Prop) (s : State)
    (v : τ) : Prop :=
  s.cursor ≤ p.size ∧ stands (f.tail p.instructions.toList s.cursor) s.world v

/-- The interpreter's next step stops it where the system has stopped. -/
def Ended (p : Program) (policy : EndOfInput) (stopped : Ending → World → τ → Prop) (s : State)
    (v : τ) : Prop :=
  ∃ e s', step p policy s = .stop e s' ∧ stopped e s'.world v

theorem getElem?_toList (p : Program) (index : Nat) :
    p.instructions.toList[index]? = p.get? index := by
  simp [Program.get?]

/-- An action that is carried out. -/
theorem acts (R : Realization f p.instructions.toList L base next? stands stopped) {a : Action}
    {w w' : World} {cursor : Nat} {v : τ}
    (hi : p.instructions.toList[cursor]? = some a.instruction)
    (hv : stands (f.tail p.instructions.toList cursor) w v)
    (hp : a.perform f.policy cursor w = (none, w')) :
    ∃ n v', Reaches next? n v v' ∧ stands (f.tail p.instructions.toList (cursor + 1)) w' v' := by
  cases a with
  | move d =>
    simp only [Action.perform] at hp
    split at hp
    next t hmove =>
      obtain ⟨-, rfl⟩ := Prod.mk.inj hp
      have hcapacity : t.capacity = w.tape.capacity :=
        congrArg Array.size (Tape.move?_eq_some hmove).1
      obtain ⟨n, v', -, hreach, hv'⟩ := R.lead hv hcapacity fun c hc =>
        R.compiled.arrives_moved hc hi hmove
      exact ⟨n, v', hreach, hv'⟩
    next => simp at hp
  | add d =>
    obtain ⟨-, rfl⟩ := Prod.mk.inj hp
    obtain ⟨n, v', -, hreach, hv'⟩ := R.lead hv (Tape.capacity_add w.tape d) fun c hc =>
      Compiled.arrives_add hc hi
    exact ⟨n, v', hreach, hv'⟩
  | input =>
    simp only [Action.perform] at hp
    split at hp
    next b? left hread =>
      obtain ⟨-, rfl⟩ := Prod.mk.inj hp
      exact R.read hi hv hread
    next => simp at hp
  | output =>
    obtain ⟨b, hb⟩ := (R.onCell hv).get?
    simp only [Action.perform, hb, Option.getD_some] at hp
    split at hp
    next left hwrite =>
      obtain ⟨-, rfl⟩ := Prod.mk.inj hp
      exact R.write hi hv hb hwrite
    next => simp at hp

/-- An action that is refused. -/
theorem actStops (R : Realization f p.instructions.toList L base next? stands stopped) {a : Action}
    {w w' : World} {fault : Fault} {cursor : Nat} {v : τ}
    (hi : p.instructions.toList[cursor]? = some a.instruction)
    (hv : stands (f.tail p.instructions.toList cursor) w v)
    (hp : a.perform f.policy cursor w = (some fault, w')) :
    ∃ n v', Reaches next? n v v' ∧ stopped (.faulted fault) w' v' := by
  cases a with
  | move d =>
    simp only [Action.perform] at hp
    split at hp
    next => simp at hp
    next hmove =>
      obtain ⟨hfault, rfl⟩ := Prod.mk.inj hp
      obtain rfl := Option.some.inj hfault
      obtain ⟨s, rest, rfl, harrives⟩ := R.compiled.arrives_refused hi
      obtain ⟨n, v₁, -, hreach, hv₁⟩ := R.lead hv rfl fun c hc => harrives hc hmove
      obtain ⟨m, v', hreach', hv'⟩ := R.refused (List.getElem?_eq_some_iff.mp hi).1 hv₁
      exact ⟨n + m, v', hreach.trans hreach', hv'⟩
  | add d => simp [Action.perform] at hp
  | input =>
    simp only [Action.perform] at hp
    split at hp
    next => simp at hp
    next e left hread =>
      obtain ⟨hfault, rfl⟩ := Prod.mk.inj hp
      obtain rfl := Option.some.inj hfault
      exact R.readFailed hi hv hread
  | output =>
    obtain ⟨b, hb⟩ := (R.onCell hv).get?
    simp only [Action.perform, hb, Option.getD_some] at hp
    split at hp
    next => simp at hp
    next e left hwrite =>
      obtain ⟨hfault, rfl⟩ := Prod.mk.inj hp
      obtain rfl := Option.some.inj hfault
      exact R.writeFailed hi hv hb hwrite

theorem length_eq (R : Realization f p.instructions.toList L base next? stands stopped) :
    f.size = p.size :=
  R.compiled.size.symm

private theorem step_loopOpen (R : Realization f p.instructions.toList L base next? stands stopped)
    {s s' : State} {v : τ} {target : Nat} (hs : Follows f p stands s v)
    (hi : p.get? s.cursor = some (.loopOpen target))
    (hstep : execute policy (.loopOpen target) s = .next s') :
    ∃ n v', 1 ≤ n ∧ Reaches next? n v v' ∧ Follows f p stands s' v' := by
  obtain ⟨b, hb⟩ := (R.onCell hs.2).get?
  rw [← getElem?_toList] at hi
  have htarget : target ≤ p.size := R.length_eq ▸ R.compiled.target_le hi
  have hcursor : s.cursor < p.size := (List.getElem?_eq_some_iff.mp hi).1
  rw [execute_loopOpen hb, Interpreter.Step.next.injEq] at hstep
  subst hstep
  obtain ⟨n, v', hn, hreach, hv'⟩ := R.lead hs.2 rfl fun c hc =>
    R.compiled.arrives_loopOpen hc hb hi
  exact ⟨n, v', hn, hreach, by rw [World.cursor_at]; split <;> omega, hv'⟩

private theorem step_loopClose (R : Realization f p.instructions.toList L base next? stands stopped)
    {s s' : State} {v : τ} {target : Nat} (hs : Follows f p stands s v)
    (hi : p.get? s.cursor = some (.loopClose target))
    (hstep : execute policy (.loopClose target) s = .next s') :
    ∃ n v', 1 ≤ n ∧ Reaches next? n v v' ∧ Follows f p stands s' v' := by
  obtain ⟨b, hb⟩ := (R.onCell hs.2).get?
  rw [← getElem?_toList] at hi
  have htarget : target ≤ p.size := R.length_eq ▸ R.compiled.target_le hi
  have hcursor : s.cursor < p.size := (List.getElem?_eq_some_iff.mp hi).1
  rw [execute_loopClose hb, Interpreter.Step.next.injEq] at hstep
  subst hstep
  obtain ⟨n, v', hn, hreach, hv'⟩ := R.lead hs.2 rfl fun c hc =>
    R.compiled.arrives_loopClose hc hb hi
  exact ⟨n, v', hn, hreach, by rw [World.cursor_at]; split <;> omega, hv'⟩

/-- A system that realizes a program simulates the interpreter. Additions and moves by zero have no
code; the cursor goes forward then. -/
theorem simulation (R : Realization f p.instructions.toList L base next? stands stopped)
    (hpolicy : f.policy = policy) :
    Simulation (advance? p policy) next? (Follows f p stands) (fun s => p.size - s.cursor)
      (Ended p policy stopped) where
  step := by
    intro s s' v hs hnext
    have hstep := advance?_eq_some.mp hnext
    cases hi : p.get? s.cursor with
    | none => simp [step_of_none hi] at hstep
    | some i =>
      rw [step_of_get? hi] at hstep
      have hi' := hi
      rw [← getElem?_toList] at hi'
      have hcursor : s.cursor < p.size := (List.getElem?_eq_some_iff.mp hi').1
      rcases instruction_cases i with ⟨a, rfl⟩ | ⟨target, rfl⟩ | ⟨target, rfl⟩
      · rw [execute_action (R.onCell hs.2)] at hstep
        rcases hp : a.perform policy s.cursor s.world with ⟨stop?, w'⟩
        rw [hp] at hstep
        cases stop? with
        | some fault => simp [acted] at hstep
        | none =>
          obtain rfl := Interpreter.Step.next.inj hstep
          obtain ⟨n, v', hreach, hv'⟩ := R.acts hi' hs.2 (hpolicy ▸ hp)
          refine ⟨n, v', hreach, ⟨hcursor, hv'⟩, fun _ => ?_⟩
          rw [World.cursor_at]
          omega
      · obtain ⟨n, v', hn, hreach, hs'⟩ := R.step_loopOpen hs hi hstep
        exact ⟨n, v', hreach, hs', fun hzero => by omega⟩
      · obtain ⟨n, v', hn, hreach, hs'⟩ := R.step_loopClose hs hi hstep
        exact ⟨n, v', hreach, hs', fun hzero => by omega⟩
  stop := by
    intro s v hs hnext
    obtain ⟨e, s', hstep⟩ := advance?_eq_none.mp hnext
    cases hi : p.get? s.cursor with
    | none =>
      rw [step_of_none hi] at hstep
      obtain ⟨rfl, rfl⟩ := Interpreter.Step.stop.inj hstep
      have hcursor : s.cursor = p.instructions.toList.length := by
        rw [← getElem?_toList] at hi
        exact Nat.le_antisymm hs.1 (List.getElem?_eq_none_iff.mp hi)
      obtain ⟨n, v', hreach, hv'⟩ := R.finished (hcursor ▸ hs.2)
      exact ⟨n, v', hreach, R.stop hv', .finished, s, step_of_none hi, hv'⟩
    | some i =>
      have hi' := hi
      rw [← getElem?_toList] at hi'
      rw [step_of_get? hi] at hstep
      obtain ⟨b, hb⟩ := (R.onCell hs.2).get?
      rcases instruction_cases i with ⟨a, rfl⟩ | ⟨target, rfl⟩ | ⟨target, rfl⟩
      · have hexecute : execute policy a.instruction s = _ := execute_action (R.onCell hs.2)
        rw [hexecute] at hstep
        rcases hp : a.perform policy s.cursor s.world with ⟨stop?, w'⟩
        rw [hp] at hstep hexecute
        cases stop? with
        | none => simp [acted] at hstep
        | some fault =>
          obtain ⟨n, v', hreach, hv'⟩ := R.actStops hi' hs.2 (hpolicy ▸ hp)
          exact ⟨n, v', hreach, R.stop hv', .faulted fault, w'.at s.cursor,
            (step_of_get? hi).trans hexecute, hv'⟩
      · simp [execute_loopOpen hb] at hstep
      · simp [execute_loopClose hb] at hstep

/-- If the interpreter ends, so does the system. -/
theorem forward (R : Realization f p.instructions.toList L base next? stands stopped)
    (hpolicy : f.policy = policy) {k fuel : Nat} {v₀ v : τ} {s s' : State} {e : Ending}
    (hstart : Reaches next? k v₀ v) (hv : Follows f p stands s v)
    (h : runFrom p policy fuel s = some (e, s')) :
    ∃ n v', Reaches next? n v₀ v' ∧ stopped e s'.world v' := by
  obtain ⟨n, t, hn, hstop⟩ := runFrom_eq_some_iff.mp ⟨fuel, h⟩
  obtain ⟨m, v', hm, -, e', t', hstop', hv'⟩ :=
    (R.simulation hpolicy).forward hv hn (advance?_eq_none.mpr ⟨e, s', hstop⟩)
  obtain ⟨rfl, rfl⟩ := Interpreter.Step.stop.inj (hstop.symm.trans hstop')
  exact ⟨k + m, v', hstart.trans hm, hv'⟩

/-- If the system ends, so does the interpreter. -/
theorem backward (R : Realization f p.instructions.toList L base next? stands stopped)
    (hpolicy : f.policy = policy) {k n : Nat} {v₀ v v' : τ} {s : State}
    (hstart : Reaches next? k v₀ v) (hv : Follows f p stands s v) (h : Reaches next? n v₀ v')
    (hend : next? v' = none) :
    ∃ e s', (∃ fuel, runFrom p policy fuel s = some (e, s')) ∧ stopped e s'.world v' := by
  obtain ⟨m, -, hm⟩ := h.resume hend hstart
  obtain ⟨l, t, hl, -, e, s', hstop, hv'⟩ := (R.simulation hpolicy).backward hv hm hend
  exact ⟨e, s', runFrom_eq_some_iff.mpr ⟨l, t, hl, hstop⟩, hv'⟩

end Realization

end TapeLang.Native
