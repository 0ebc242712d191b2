import TapeLang.Proofs.Interpreter.Steps

/-!
# Runs in lockstep

One program in two worlds takes the same instructions as long as the current cells agree. So what has to
be known of a relation between the worlds is what the four actions do to it; jumps, and runs of any
length, follow. The worlds may part at an action, and the runs with them.
-/

namespace TapeLang

open Transition

/-- Worlds that stay related whatever is done in them, unless they part at an action. The index where an
action stands may only show in its fault. -/
structure Lockstep (policy : EndOfInput) (R : World → World → Prop)
    (Parts : Action → World → World → Prop) : Prop where
  onCell : ∀ {w w'}, R w w' → w.tape.OnCell
  cell : ∀ {w w'}, R w w' → w'.tape.get? = w.tape.get?
  act : ∀ {w w'} (a : Action) (index : Nat), R w w' →
    Parts a w w' ∨
      (a.perform policy index w').1 = (a.perform policy index w).1 ∧
        R (a.perform policy index w).2 (a.perform policy index w').2

namespace Lockstep

open Interpreter

variable {policy : EndOfInput} {R : World → World → Prop} {Parts : Action → World → World → Prop}
  {p : Program} {w w' : World} {c n : Nat} {s : State}

/-- What two steps did alike: both go on to one place, or both end the run in one way. -/
inductive SameStep (R : World → World → Prop) : Step → Step → Prop where
  | next {w w' : World} {c : Nat} (related : R w w') :
      SameStep R (.next (w.at c)) (.next (w'.at c))
  | stop {e : Ending} {w w' : World} {c : Nat} (related : R w w') :
      SameStep R (.stop e (w.at c)) (.stop e (w'.at c))

private theorem SameStep.of_next {t : State} {r : Step} (h : SameStep R (.next t) r) :
    ∃ v v' c, t = v.at c ∧ r = .next (v'.at c) ∧ R v v' := by
  cases h with
  | @next v v' c related => exact ⟨v, v', c, rfl, rfl, related⟩

theorem onCell_right (h : Lockstep policy R Parts) (related : R w w') : w'.tape.OnCell := by
  obtain ⟨b, hb⟩ := (h.onCell related).get?
  rw [← h.cell related] at hb
  exact (Array.getElem?_eq_some_iff.mp hb).1

theorem step (h : Lockstep policy R Parts) (related : R w w') (p : Program) (c : Nat) :
    (∃ a : Action, p.get? c = some a.instruction ∧ Parts a w w') ∨
      SameStep R (Interpreter.step p policy (w.at c)) (Interpreter.step p policy (w'.at c)) := by
  have onCell := h.onCell related
  have onCell' := h.onCell_right related
  cases hi : p.get? c with
  | none =>
    rw [step_of_none hi, step_of_none hi]
    exact .inr (.stop related)
  | some i =>
    obtain ⟨b, hb⟩ := onCell.get?
    have hb' := (h.cell related).trans hb
    rw [step_of_get? hi, step_of_get? hi]
    rcases instruction_cases i with ⟨a, rfl⟩ | ⟨target, rfl⟩ | ⟨target, rfl⟩
    · rcases h.act a c related with parts | ⟨hstop, hrelated⟩
      · exact .inl ⟨a, rfl, parts⟩
      · right
        rw [execute_action onCell, execute_action onCell']
        simp only [World.cursor_at, World.world_at]
        rcases hp : a.perform policy c w with ⟨stop, v⟩
        rcases hp' : a.perform policy c w' with ⟨stop', v'⟩
        rw [hp, hp'] at hstop hrelated
        obtain rfl : stop' = stop := hstop
        cases stop' with
        | none => exact .next hrelated
        | some f => exact .stop hrelated
    · -- A jump looks at the current cell only, and changes no world.
      rw [execute_loopOpen hb, execute_loopOpen hb']
      exact .inr (.next related)
    · rw [execute_loopClose hb, execute_loopClose hb']
      exact .inr (.next related)

/-- Worlds that have one tape in common and may differ in their channels are in lockstep if reading a byte and
writing one keep them related. -/
theorem of_channels (onCell : ∀ {w w'}, R w w' → w.tape.OnCell)
    (sameTape : ∀ {w w'}, R w w' → w'.tape = w.tape)
    (retape : ∀ {w w'} {t : Tape}, R w w' → t.OnCell → R { w with tape := t } { w' with tape := t })
    (read : ∀ {w w'}, R w w' → w'.input.readByte.1 = w.input.readByte.1 ∧
      R { w with input := w.input.readByte.2 } { w' with input := w'.input.readByte.2 })
    (write : ∀ {w w'} (b : UInt8), R w w' → w.tape.get? = some b →
      Parts .output w w' ∨ (w'.output.writeByte b).1 = (w.output.writeByte b).1 ∧
        R { w with output := (w.output.writeByte b).2 } { w' with output := (w'.output.writeByte b).2 }) :
    Lockstep policy R Parts where
  onCell := onCell
  cell h := congrArg Tape.get? (sameTape h)
  act := by
    intro w ⟨_, input', output'⟩ a index h
    obtain rfl := sameTape h
    have hcell := onCell h
    cases a with
    | move d =>
      right
      simp only [Action.perform]
      cases moved : w.tape.move? d.toInt64 with
      | none => exact ⟨rfl, h⟩
      | some t => exact ⟨rfl, retape h (Tape.move?_eq_some moved).2⟩
    | add d => exact .inr ⟨rfl, retape h (hcell.add d)⟩
    | input =>
      right
      obtain ⟨hresult, hrelated⟩ := read h
      simp only [Action.perform]
      rcases hread : w.input.readByte with ⟨r, i⟩
      rcases hread' : input'.readByte with ⟨r', i'⟩
      simp only [hread, hread'] at hresult hrelated
      subst hresult
      cases r' with
      | ok b? => exact ⟨rfl, retape hrelated (Action.onCell_receive hcell b?)⟩
      | error f => exact ⟨rfl, hrelated⟩
    | output =>
      obtain ⟨b, hb⟩ := hcell.get?
      rcases write b h hb with parts | ⟨hresult, hrelated⟩
      · exact .inl parts
      · right
        simp only [Action.perform, hb, Option.getD_some]
        rcases hwrite : w.output.writeByte b with ⟨r, o⟩
        rcases hwrite' : output'.writeByte b with ⟨r', o'⟩
        simp only [hwrite, hwrite'] at hresult hrelated
        subst hresult
        cases r' with
        | ok u => exact ⟨rfl, hrelated⟩
        | error f => exact ⟨rfl, hrelated⟩

/-- Within `n` steps two runs come to an action at which their worlds part. -/
def Parted (p : Program) (policy : EndOfInput) (R : World → World → Prop)
    (Parts : Action → World → World → Prop) (n : Nat) (s s' : State) : Prop :=
  ∃ m, m < n ∧ ∃ (a : Action) (v v' : World) (c : Nat),
    Reaches (advance? p policy) m s (v.at c) ∧ Reaches (advance? p policy) m s' (v'.at c) ∧
      p.get? c = some a.instruction ∧ R v v' ∧ Parts a v v'

theorem Parted.after {s' t t' : State} (h : Parted p policy R Parts n t t')
    (first : advance? p policy s = some t) (first' : advance? p policy s' = some t') :
    Parted p policy R Parts (n + 1) s s' := by
  obtain ⟨m, hm, a, v, v', c, hreach, hreach', hparts⟩ := h
  exact ⟨m + 1, by omega, a, v, v', c, .step first hreach, .step first' hreach', hparts⟩

/-- As far as one run gets, the other comes along, or they part. -/
theorem reaches (h : Lockstep policy R Parts) (related : R w w')
    (run : Reaches (advance? p policy) n (w.at c) s) :
    (∃ v v' c', s = v.at c' ∧ Reaches (advance? p policy) n (w'.at c) (v'.at c') ∧ R v v') ∨
      Parted p policy R Parts n (w.at c) (w'.at c) := by
  generalize hstart : w.at c = start at run
  induction run generalizing w w' c with
  | refl => exact .inl ⟨w, w', c, hstart.symm, .refl _, related⟩
  | @step n _ t u first _ ih =>
    subst hstart
    rcases h.step related p c with ⟨a, ha, parts⟩ | same
    · exact .inr ⟨0, by omega, a, w, w', c, .refl _, .refl _, ha, related, parts⟩
    · rw [advance?_eq_some.mp first] at same
      obtain ⟨v, v', c', rfl, hstep', hrelated⟩ := same.of_next
      have first' := advance?_eq_some.mpr hstep'
      rcases ih hrelated rfl with ⟨x, x', d, hu, hreach, hx⟩ | hparted
      · exact .inl ⟨x, x', d, hu, .step first' hreach, hx⟩
      · exact .inr (hparted.after first first')

/-- Two runs have both not ended, or both ended in one way and at one place. -/
inductive SameResult (R : World → World → Prop) :
    Option (Ending × State) → Option (Ending × State) → Prop where
  | running : SameResult R none none
  | ended {e : Ending} {w w' : World} {c : Nat} (related : R w w') :
      SameResult R (some (e, w.at c)) (some (e, w'.at c))

theorem SameResult.of_none {r : Option (Ending × State)} (h : SameResult R none r) : r = none := by
  cases h
  rfl

theorem SameResult.of_some {e : Ending} {t : State} {r : Option (Ending × State)}
    (h : SameResult R (some (e, t)) r) :
    ∃ w', r = some (e, w'.at t.cursor) ∧ R t.world w' := by
  cases h with
  | @ended _ _ w' _ related => exact ⟨w', rfl, related⟩

/-- Two runs in lockstep have the same result whatever their fuel, unless they part within it. -/
theorem runFrom (h : Lockstep policy R Parts) (related : R w w') (p : Program) (c fuel : Nat) :
    SameResult R (Interpreter.runFrom p policy fuel (w.at c))
        (Interpreter.runFrom p policy fuel (w'.at c)) ∨
      Parted p policy R Parts fuel (w.at c) (w'.at c) := by
  induction fuel generalizing w w' c with
  | zero => exact .inl .running
  | succ fuel ih =>
    rcases h.step related p c with ⟨a, ha, parts⟩ | same
    · exact .inr ⟨0, by omega, a, w, w', c, .refl _, .refl _, ha, related, parts⟩
    · simp only [Interpreter.runFrom]
      generalize hstep : Interpreter.step p policy (w.at c) = next at same ⊢
      generalize hstep' : Interpreter.step p policy (w'.at c) = next' at same ⊢
      cases same with
      | stop hrelated => exact .inl (.ended hrelated)
      | @next v v' c' hrelated =>
        rcases ih hrelated c' with hsame | hparted
        · exact .inl hsame
        · exact .inr (hparted.after (advance?_eq_some.mpr hstep) (advance?_eq_some.mpr hstep'))

theorem run (h : Lockstep policy R Parts) (related : R w w') (p : Program) (fuel : Nat) :
    SameResult R (Interpreter.run fuel p policy w.tape w.input w.output)
        (Interpreter.run fuel p policy w'.tape w'.input w'.output) ∨
      Parted p policy R Parts fuel (w.at 0) (w'.at 0) :=
  h.runFrom related p 0 fuel

end Lockstep

end TapeLang
