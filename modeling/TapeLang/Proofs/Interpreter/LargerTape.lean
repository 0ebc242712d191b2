import TapeLang.Proofs.Interpreter.Lockstep

/-!
# Larger tapes

The size of a tape is asked for in one place, where a move would leave it on the right. Cells added behind
the last one are out of reach otherwise: a run with them goes as it did without, and leaves them alone,
unless it was ended by such a move.
-/

namespace TapeLang

namespace Tape

variable {t : Tape}

/-- The tape with further cells behind its last one. -/
def extend (t : Tape) (extra : Array UInt8) : Tape :=
  ⟨t.cells ++ extra, t.pointer⟩

private theorem get?_extend (h : t.OnCell) (extra : Array UInt8) : (t.extend extra).get? = t.get? :=
  Array.getElem?_append_left h

private theorem set_extend (h : t.OnCell) (extra : Array UInt8) (b : UInt8) :
    (t.extend extra).set b = (t.set b).extend extra := by
  obtain ⟨cells, pointer⟩ := t
  simp only [extend, set, Tape.mk.injEq, and_true]
  exact Array.setIfInBounds_append_left h

private theorem add_extend (h : t.OnCell) (extra : Array UInt8) (d : Int8) :
    (t.extend extra).add d = (t.add d).extend extra := by
  obtain ⟨b, hb⟩ := h.get?
  rw [add_eq_set hb, add_eq_set ((get?_extend h extra).trans hb), set_extend h]

/-- A move that does not pass the right end goes to the same cell on the larger tape, or is refused
there too. -/
theorem move?_extend {d : Int8} (h : t.pointer + d.toInt < t.capacity) (extra : Array UInt8) :
    (t.extend extra).move? d.toInt64 = (t.move? d.toInt64).map (extend · extra) := by
  unfold move?
  simp only [extend]
  cases hsum : addSigned? t.pointer d.toInt64.toInt with
  | none => rfl
  | some next =>
    have hnext := (addSigned?_eq_some_iff.mp hsum).1
    rw [Int8.toInt_toInt64] at hnext
    have inside : next < t.cells.size := by
      have : (next : Int) < t.cells.size := hnext ▸ h
      omega
    have inside' : next < (t.cells ++ extra).size := by
      rw [Array.size_append]
      omega
    simp only [inside, inside', if_true, Option.map_some]

/-- Past the right end every move is refused. -/
theorem move?_eq_none {d : Int8} (h : (t.capacity : Int) ≤ t.pointer + d.toInt) :
    t.move? d.toInt64 = none := by
  unfold move?
  cases hsum : addSigned? t.pointer d.toInt64.toInt with
  | none => rfl
  | some next =>
    have hnext := (addSigned?_eq_some_iff.mp hsum).1
    rw [Int8.toInt_toInt64] at hnext
    have outside : ¬next < t.cells.size := by
      have : (t.cells.size : Int) ≤ next := hnext ▸ h
      omega
    simp only [outside, if_false]

end Tape

/-- The world with further cells behind the last one of its tape. -/
def World.extend (w : World) (extra : Array UInt8) : World :=
  { w with tape := w.tape.extend extra }

namespace Action

variable {policy : EndOfInput} {w : World}

private theorem receive_extend {t : Tape} (h : t.OnCell) (extra : Array UInt8) (b? : Option UInt8) :
    receive policy (t.extend extra) b? = (receive policy t b?).extend extra := by
  unfold receive
  split
  case h_3 => rfl
  all_goals exact Tape.set_extend h extra _

/-- The action would move past the right end. -/
def Overruns (a : Action) (w : World) : Prop :=
  ∃ d, a = .move d ∧ (w.tape.capacity : Int) ≤ w.tape.pointer + d.toInt

theorem perform_extend {a : Action} (h : w.tape.OnCell) (within : ¬a.Overruns w)
    (extra : Array UInt8) (index : Nat) :
    a.perform policy index (w.extend extra) =
      ((a.perform policy index w).1, (a.perform policy index w).2.extend extra) := by
  obtain ⟨tape, input, output⟩ := w
  cases a with
  | move d =>
    have inside : tape.pointer + d.toInt < tape.capacity := by
      by_contra past
      exact within ⟨d, rfl, Int.not_lt.mp past⟩
    simp only [perform, World.extend, Tape.move?_extend inside extra]
    cases tape.move? d.toInt64 <;> rfl
  | add d => simp only [perform, World.extend, Tape.add_extend h extra d]
  | input =>
    simp only [perform, World.extend]
    rcases input.readByte with ⟨f | b?, left⟩
    · rfl
    · simp only [receive_extend h extra b?]
  | output =>
    simp only [perform, World.extend, Tape.get?_extend h extra]
    rcases output.writeByte (tape.get?.getD 0) with ⟨f | u, left⟩ <;> rfl

theorem capacity_perform {a : Action} {index : Nat} (h : w.tape.OnCell) :
    (a.perform policy index w).2.tape.capacity = w.tape.capacity := by
  have kept := Interpreter.kept_execute policy a.instruction (w.at index)
  rw [Interpreter.execute_action h] at kept
  simp only [World.world_at, World.cursor_at] at kept
  cases hp : a.perform policy index w with
  | mk stop w' =>
    rw [hp] at kept
    cases stop <;> exact kept.capacity

end Action

/-- A world whose tape has `capacity` cells, and the same world with further cells. -/
structure Enlarged (capacity : Nat) (extra : Array UInt8) (w w' : World) : Prop where
  onCell : w.tape.OnCell
  size : w.tape.capacity = capacity
  eq : w' = w.extend extra

theorem lockstep_enlarged (policy : EndOfInput) (capacity : Nat) (extra : Array UInt8) :
    Lockstep policy (Enlarged capacity extra) (fun a w _ => a.Overruns w) where
  onCell h := h.onCell
  cell := by
    rintro w w' ⟨onCell, -, rfl⟩
    exact Tape.get?_extend onCell extra
  act := by
    rintro w w' a index ⟨onCell, size, rfl⟩
    by_cases overruns : a.Overruns w
    · exact .inl overruns
    · right
      rw [Action.perform_extend onCell overruns]
      have hcell : (a.perform policy index w).2.tape.OnCell := Action.onCell_perform onCell rfl
      exact ⟨rfl, hcell, (Action.capacity_perform onCell).trans size, rfl⟩

namespace Interpreter

/-- The run was ended by a move past the right end of a tape of this size. -/
def PastRightEnd (p : Program) (capacity : Nat) : Ending → Prop
  | .faulted (.outOfTape index pointer) =>
    ∃ d, p.get? index = some (.move d) ∧ (capacity : Int) ≤ pointer + d.toInt
  | _ => False

private theorem step_of_overruns {p : Program} {a : Action} {w : World} {c : Nat} (policy : EndOfInput)
    (h : w.tape.OnCell) (ha : p.get? c = some a.instruction) (overruns : a.Overruns w) :
    ∃ e t, step p policy (w.at c) = .stop e t ∧ PastRightEnd p w.tape.capacity e := by
  obtain ⟨d, rfl, past⟩ := overruns
  refine ⟨.faulted (.outOfTape c w.tape.pointer), w.at c, ?_, d, ha, past⟩
  rw [step_of_get? ha, execute_action h]
  simp only [World.world_at, World.cursor_at, Action.perform, Tape.move?_eq_none past]
  rfl

/-- Larger tapes change nothing but the right end. If a run ends otherwise than by a move past the right end
of its tape, it ends in the same way on the tape with further cells, with the same channels and pointer, and
those cells are as they were. A run that has not ended has not ended there either. -/
theorem run_extend {tape : Tape} (onCell : tape.pointer < tape.capacity) (p : Program)
    (policy : EndOfInput) (input : Input) (output : Output) (extra : Array UInt8) (fuel : Nat) :
    (∀ e t, run fuel p policy tape input output = some (e, t) → ¬PastRightEnd p tape.capacity e →
      run fuel p policy (tape.extend extra) input output =
        some (e, { t with tape := t.tape.extend extra })) ∧
    (run fuel p policy tape input output = none →
      run fuel p policy (tape.extend extra) input output = none) := by
  let w : World := ⟨tape, input, output⟩
  have related : Enlarged tape.capacity extra w (w.extend extra) := ⟨onCell, rfl, rfl⟩
  have result := (lockstep_enlarged policy tape.capacity extra).run related p fuel
  -- Where the runs part, the one on the smaller tape has ended.
  have past_of_parted : Lockstep.Parted p policy (Enlarged tape.capacity extra)
      (fun a w _ => a.Overruns w) fuel (w.at 0) ((w.extend extra).at 0) →
      ∃ e t, run fuel p policy tape input output = some (e, t) ∧ PastRightEnd p tape.capacity e := by
    rintro ⟨m, hm, a, v, v', c, hreach, -, ha, hv, overruns⟩
    obtain ⟨e, t, hstop, past⟩ := step_of_overruns policy hv.onCell ha overruns
    exact ⟨e, t, runFrom_of_reaches hreach hstop hm, hv.size ▸ past⟩
  constructor
  · intro e t hrun within
    rcases result with same | parted
    · rw [hrun] at same
      obtain ⟨w', hrun', hw'⟩ := same.of_some
      rw [hw'.eq] at hrun'
      exact hrun'
    · obtain ⟨e', t', hrun', past⟩ := past_of_parted parted
      obtain ⟨rfl, -⟩ := Prod.mk.inj (Option.some.inj (hrun.symm.trans hrun'))
      exact absurd past within
  · intro hrun
    rcases result with same | parted
    · rw [hrun] at same
      exact same.of_none
    · obtain ⟨e', t', hrun', -⟩ := past_of_parted parted
      simp [hrun] at hrun'

/-- A run that is ended at the left end, with two further cells on the right. -/
theorem run_extend_leftwards :
    let p : Program := ⟨#[.input, .output, .move (-1), .move (-1)]⟩
    let tape : Tape := ⟨#[1, 2], 1⟩
    tape.pointer < tape.capacity ∧ ¬PastRightEnd p tape.capacity (.faulted (.outOfTape 3 0)) ∧
      run 4 p .zero tape (.ofBytes [9]) {} = some (.faulted (.outOfTape 3 0),
        ⟨⟨#[1, 9], 0⟩, 3, { calls := 1 }, { written := #[9], calls := 1 }⟩) ∧
      run 4 p .zero ⟨#[1, 2, 7, 8], 1⟩ (.ofBytes [9]) {} = some (.faulted (.outOfTape 3 0),
        ⟨⟨#[1, 9, 7, 8], 0⟩, 3, { calls := 1 }, { written := #[9], calls := 1 }⟩) := by
  intro p tape
  have onCell : tape.pointer < tape.capacity := by decide
  have within : ¬PastRightEnd p tape.capacity (.faulted (.outOfTape 3 0)) := by
    rintro ⟨d, hd, past⟩
    obtain rfl : d = -1 := by simpa [p, Program.get?] using hd.symm
    exact absurd past (by decide)
  have hrun : run 4 p .zero tape (.ofBytes [9]) {} = some (.faulted (.outOfTape 3 0),
      ⟨⟨#[1, 9], 0⟩, 3, { calls := 1 }, { written := #[9], calls := 1 }⟩) := by decide
  have hlarger := (run_extend onCell p .zero (.ofBytes [9]) {} #[7, 8] 4).1 _ _ hrun within
  exact ⟨onCell, within, hrun, hlarger⟩

end Interpreter

end TapeLang
