import TapeLang.Proofs.Source.Rendering

/-!
# Texts in a row

Two texts that parse, one behind the other, are a text for both programs in a row: the loops of the
second jump further by the length of the first. A run of it is a run of the first program and then, if that
finished, one of the second. Only the place of a refused move tells the difference.
-/

namespace TapeLang

/-- One program behind another. The loops of the second jump just behind their partners again. -/
def Program.append (p q : Program) : Program :=
  ⟨p.instructions ++ q.instructions.map (Instruction.shift p.size)⟩

/-- The fault with its place moved up by `n` instructions. -/
def Fault.shift (n : Nat) : Fault → Fault
  | .outOfTape index pointer => .outOfTape (index + n) pointer
  | .channel f => .channel f

def Ending.shift (n : Nat) : Ending → Ending
  | .faulted f => .faulted (f.shift n)
  | .finished => .finished
  | .noCell => .noCell

/-- `Ends p policy w e w'`: a run of the program in the world `w` ends with `e` and leaves `w'`. -/
def Interpreter.Ends (p : Program) (policy : EndOfInput) (w : World) (e : Ending) (w' : World) : Prop :=
  ∃ fuel s, run fuel p policy w.tape w.input w.output = some (e, s) ∧ s.world = w'

theorem Action.perform_shift (policy : EndOfInput) (index n : Nat) (a : Action) (w : World) :
    a.perform policy (index + n) w =
      ((a.perform policy index w).1.map (Fault.shift n), (a.perform policy index w).2) := by
  cases a with
  | move d =>
    simp only [perform]
    split <;> rfl
  | add d => rfl
  | input =>
    simp only [perform]
    split <;> rfl
  | output =>
    simp only [perform]
    split <;> rfl

namespace Block

variable {policy : EndOfInput} {start : Nat} {b c : Block} {w w' : World} {stop : Option Fault}

private theorem flatten_add (b : Block) (start n : Nat) :
    b.flatten (start + n) = (b.flatten start).map (Instruction.shift n) := by
  induction b generalizing start with
  | done => rfl
  | act a rest ih =>
    have ha : a.instruction.shift n = a.instruction := by cases a <;> rfl
    simp only [flatten, List.map_cons, ha, Nat.add_right_comm start n 1, ih]
  | loop body rest ihBody ihRest =>
    have hclose : start + 1 + n + body.size + 1 = start + 1 + body.size + 1 + n := by omega
    simp only [flatten, List.map_cons, List.map_append, Instruction.shift, hclose,
      Nat.add_right_comm start n 1, ihBody, ihRest, List.cons_append]

theorem program_append (b c : Block) : (b.append c).program = b.program.append c.program := by
  have hshift := c.flatten_add 0 b.size
  simp only [program, Program.append, Program.size, flatten_append, hshift, List.size_toArray,
    length_flatten, List.map_toArray, List.append_toArray]

/-- Where a block stands only shows in the place of a refused move. -/
theorem Evaluates.shift (h : Evaluates policy start b w stop w') (n : Nat) :
    Evaluates policy (start + n) b w (stop.map (Fault.shift n)) w' := by
  induction h with
  | done => exact .done
  | act first _ ih =>
    refine .act ?_ (by rwa [Nat.add_right_comm] at ih)
    rw [Action.perform_shift, first]
    rfl
  | actStopped first =>
    refine .actStopped ?_
    rw [Action.perform_shift, first]
    rfl
  | loopLeft zero _ ih =>
    refine .loopLeft zero ?_
    rwa [Nat.add_right_comm _ n, Nat.add_right_comm _ n]
  | loopAgain cell nonzero _ _ ihRound ihTail =>
    exact .loopAgain cell nonzero (by rwa [Nat.add_right_comm] at ihRound) ihTail
  | loopStopped cell nonzero _ ihRound =>
    exact .loopStopped cell nonzero (by rwa [Nat.add_right_comm] at ihRound)

theorem Evaluates.unshift {n : Nat} (h : Evaluates policy (start + n) b w stop w') :
    ∃ stop', stop = stop'.map (Fault.shift n) ∧ Evaluates policy start b w stop' w' := by
  generalize hplace : start + n = place at h
  induction h generalizing start with
  | done => exact ⟨none, rfl, .done⟩
  | @act place a rest w w₁ w₂ stop first _ ih =>
    subst hplace
    obtain ⟨stop', rfl, htail⟩ := ih (Nat.add_right_comm start 1 n)
    rw [Action.perform_shift] at first
    rcases hperform : a.perform policy start w with ⟨_ | f, w₃⟩
    · rw [hperform] at first
      obtain ⟨-, rfl⟩ := Prod.mk.inj first
      exact ⟨stop', rfl, .act hperform htail⟩
    · simp [hperform] at first
  | @actStopped place a rest w w₁ f first =>
    subst hplace
    rw [Action.perform_shift] at first
    rcases hperform : a.perform policy start w with ⟨_ | f', w₃⟩
    · simp [hperform] at first
    · rw [hperform] at first
      obtain ⟨hfault, rfl⟩ := Prod.mk.inj first
      exact ⟨some f', hfault.symm, .actStopped hperform⟩
  | @loopLeft place body rest w w₁ stop zero _ ih =>
    subst hplace
    obtain ⟨stop', rfl, htail⟩ := @ih (start + body.size + 2) (by omega)
    exact ⟨stop', rfl, .loopLeft zero htail⟩
  | loopAgain cell nonzero _ _ ihRound ihTail =>
    subst hplace
    obtain ⟨stop', rfl, htail⟩ := ihTail rfl
    obtain ⟨_ | f, hnone, hround⟩ := ihRound (Nat.add_right_comm start 1 n)
    · exact ⟨stop', rfl, .loopAgain cell nonzero hround htail⟩
    · cases hnone
  | loopStopped cell nonzero _ ihRound =>
    subst hplace
    obtain ⟨_ | f, hsome, hround⟩ := ihRound (Nat.add_right_comm start 1 n)
    · cases hsome
    · exact ⟨some f, hsome, .loopStopped cell nonzero hround⟩

theorem Evaluates.append_stopped {f : Fault} (h : Evaluates policy start b w (some f) w') (c : Block) :
    Evaluates policy start (b.append c) w (some f) w' := by
  generalize hstop : some f = stop at h
  induction h with
  | done => cases hstop
  | act first _ ih => exact .act first (ih hstop)
  | actStopped first => exact .actStopped first
  | loopLeft zero _ ih => exact .loopLeft zero (ih hstop)
  | loopAgain cell nonzero round _ _ ihTail => exact .loopAgain cell nonzero round (ihTail hstop)
  | loopStopped cell nonzero round => exact .loopStopped cell nonzero round

theorem Evaluates.append {w₁ : World} (h : Evaluates policy start b w none w₁)
    (hc : Evaluates policy (start + b.size) c w₁ stop w') :
    Evaluates policy start (b.append c) w stop w' := by
  generalize hnone : none = stop' at h
  induction h with
  | done => exact hc
  | act first _ ih =>
    refine .act first (ih ?_ hnone)
    rwa [size, Nat.add_comm _ 1, ← Nat.add_assoc] at hc
  | actStopped => cases hnone
  | @loopLeft start body rest w w₁ stop' zero _ ih =>
    refine .loopLeft zero (ih ?_ hnone)
    have hplace : start + (Block.loop body rest).size = start + body.size + 2 + rest.size := by
      simp only [size]
      omega
    rwa [hplace] at hc
  | loopAgain cell nonzero round _ _ ihTail => exact .loopAgain cell nonzero round (ihTail hc hnone)
  | loopStopped => cases hnone

/-- The first of two blocks in a row is stopped, or the second is evaluated where the first is done. -/
def InTurn (policy : EndOfInput) (start : Nat) (b c : Block) (w : World) (stop : Option Fault)
    (w' : World) : Prop :=
  (∃ f, stop = some f ∧ Evaluates policy start b w (some f) w') ∨
    ∃ w₁, Evaluates policy start b w none w₁ ∧ Evaluates policy (start + b.size) c w₁ stop w'

/-- A loop in front of a block is left after some rounds, or a round is stopped. -/
theorem inTurn_loop {body rest : Block}
    (leave : ∀ {w}, Evaluates policy (start + body.size + 2) (rest.append c) w stop w' →
      InTurn policy (start + body.size + 2) rest c w stop w')
    (h : Evaluates policy start (.loop body (rest.append c)) w stop w') :
    InTurn policy start (.loop body rest) c w stop w' := by
  generalize hloop : Block.loop body (rest.append c) = d at h
  induction h with
  | done => cases hloop
  | act => cases hloop
  | actStopped => cases hloop
  | @loopLeft start _ _ _ _ _ zero tail =>
    obtain ⟨rfl, rfl⟩ := Block.loop.inj hloop
    rcases leave tail with ⟨f, rfl, hrest⟩ | ⟨w₁, hrest, hc⟩
    · exact .inl ⟨f, rfl, .loopLeft zero hrest⟩
    · have hbehind : start + (Block.loop body rest).size = start + body.size + 2 + rest.size := by
        simp only [size]
        omega
      exact .inr ⟨w₁, .loopLeft zero hrest, by rwa [hbehind]⟩
  | loopAgain cell nonzero round _ _ ihTail =>
    obtain ⟨rfl, rfl⟩ := Block.loop.inj hloop
    rcases ihTail leave rfl with ⟨f, rfl, hrest⟩ | ⟨w₁, hrest, hc⟩
    · exact .inl ⟨f, rfl, .loopAgain cell nonzero round hrest⟩
    · exact .inr ⟨w₁, .loopAgain cell nonzero round hrest, hc⟩
  | loopStopped cell nonzero round =>
    obtain ⟨rfl, rfl⟩ := Block.loop.inj hloop
    exact .inl ⟨_, rfl, .loopStopped cell nonzero round⟩

theorem evaluates_append_iff :
    Evaluates policy start (b.append c) w stop w' ↔ InTurn policy start b c w stop w' := by
  constructor
  · intro h
    induction b generalizing start w with
    | done => exact .inr ⟨w, .done, h⟩
    | act a rest ih =>
      cases h with
      | act first tail =>
        rcases ih tail with ⟨f, rfl, hrest⟩ | ⟨w₁, hrest, hc⟩
        · exact .inl ⟨f, rfl, .act first hrest⟩
        · rw [Nat.add_assoc, Nat.add_comm 1] at hc
          exact .inr ⟨w₁, .act first hrest, hc⟩
      | actStopped first => exact .inl ⟨_, rfl, .actStopped first⟩
    | loop body rest _ ih => exact inTurn_loop ih h
  · rintro (⟨f, rfl, hb⟩ | ⟨w₁, hb, hc⟩)
    · exact hb.append_stopped c
    · exact hb.append hc

private theorem endingOf_shift (stop : Option Fault) (n : Nat) :
    (endingOf stop).shift n = endingOf (stop.map (Fault.shift n)) := by
  cases stop <;> rfl

/-- A run of two blocks in a row is a run of the first one and then, if that finished, one of the
second. -/
theorem ends_append_iff {e : Ending} (hw : w.tape.OnCell) :
    Interpreter.Ends (b.program.append c.program) policy w e w' ↔
      (e ≠ .finished ∧ Interpreter.Ends b.program policy w e w') ∨
        ∃ w₁ e', Interpreter.Ends b.program policy w .finished w₁ ∧
          Interpreter.Ends c.program policy w₁ e' w' ∧ e = e'.shift b.program.size := by
  have hends : ∀ {b : Block} {w w' : World} {e : Ending}, w.tape.OnCell →
      (Interpreter.Ends b.program policy w e w' ↔
        ∃ stop, e = endingOf stop ∧ Evaluates policy 0 b w stop w') :=
    fun hw => run_program_iff _ policy hw
  rw [← program_append, hends hw, hends hw]
  constructor
  · rintro ⟨stop, rfl, h⟩
    rcases evaluates_append_iff.mp h with ⟨f, rfl, hb⟩ | ⟨w₁, hb, hc⟩
    · have hfault : endingOf (some f) ≠ .finished := by simp [endingOf]
      exact .inl ⟨hfault, some f, rfl, hb⟩
    · obtain ⟨stop', rfl, hc'⟩ := hc.unshift
      refine .inr ⟨w₁, endingOf stop', (hends hw).mpr ⟨none, rfl, hb⟩, ?_, ?_⟩
      · exact (hends (onCell_of_evaluates hb hw)).mpr ⟨stop', rfl, hc'⟩
      · rw [endingOf_shift, size_program]
  · rintro (⟨hfault, stop, rfl, hb⟩ | ⟨w₁, e', hb, hc, rfl⟩)
    · cases stop with
      | none => exact absurd rfl hfault
      | some f => exact ⟨some f, rfl, evaluates_append_iff.mpr (.inl ⟨f, rfl, hb⟩)⟩
    · obtain ⟨_ | f, hnone, hb'⟩ := (hends hw).mp hb
      · obtain ⟨stop', rfl, hc'⟩ := (hends (onCell_of_evaluates hb' hw)).mp hc
        have hshift := hc'.shift b.size
        refine ⟨stop'.map (Fault.shift b.size), ?_, evaluates_append_iff.mpr (.inr ⟨w₁, hb', hshift⟩)⟩
        rw [endingOf_shift, size_program]
      · cases hnone

end Block

namespace Source

/-! Comments. -/

/-- Two readers with the same code, which may have read it at different positions. -/
structure SameCode (s s' : ParseState) : Prop where
  code : s'.code = s.code
  opens : s'.pending.map Prod.fst = s.pending.map Prod.fst

namespace SameCode

variable {limit : Nat} {s s' t : ParseState} {c : Char}

theorem size_pending (h : SameCode s s') : s'.pending.size = s.pending.size := by
  simpa using congrArg Array.size h.opens

theorem read (h : SameCode s s') (hread : s.read limit c = .ok t) :
    ∃ t', s'.read limit c = .ok t' ∧ SameCode t t' := by
  rcases symbol_cases c with ⟨hc, -⟩ | ⟨rfl, -⟩ | ⟨rfl, -⟩ | ⟨i, hc, hi, -⟩
  · obtain rfl := Except.ok.inj ((read_comment hc).symm.trans hread)
    exact ⟨_, read_comment hc, h.code, h.opens⟩
  · by_cases room : s.pending.size < limit
    · obtain rfl := Except.ok.inj ((read_open room).symm.trans hread)
      refine ⟨_, read_open (h.size_pending ▸ room), ?_, ?_⟩
      · rw [h.code]
      · simp only [Array.map_push, h.opens, h.code]
    · rw [read_open_refused (by omega)] at hread
      cases hread
  · cases htop : s.pending.back? with
    | none => simp [read_close_refused htop] at hread
    | some top =>
      obtain ⟨i, position⟩ := top
      obtain rfl := Except.ok.inj ((read_close htop).symm.trans hread)
      -- The open that is closed is the same one; only its position may differ.
      obtain ⟨position', htop'⟩ : ∃ position', s'.pending.back? = some (i, position') := by
        have hback : (s'.pending.map Prod.fst).back? = some i := by
          rw [h.opens, Array.back?_map, htop]
          rfl
        rw [Array.back?_map] at hback
        obtain ⟨⟨i', position'⟩, hpair, rfl⟩ := Option.map_eq_some_iff.mp hback
        exact ⟨position', hpair⟩
      refine ⟨_, read_close htop', ?_, ?_⟩
      · rw [h.code]
      · simp only [Array.map_pop, h.opens]
  · obtain rfl := Except.ok.inj ((read_plain hc hi).symm.trans hread)
    exact ⟨_, read_plain hc hi, by rw [h.code], h.opens⟩

/-- Comments change nothing but positions. -/
theorem foldlM_read {cs : List Char} (h : SameCode s s')
    (hread : (cs.filter fun c => (Instruction.ofSymbol? c).isSome).foldlM (ParseState.read limit) s =
      .ok t) :
    ∃ t', cs.foldlM (ParseState.read limit) s' = .ok t' ∧ SameCode t t' := by
  induction cs generalizing s s' with
  | nil =>
    obtain rfl := Except.ok.inj hread
    exact ⟨s', rfl, h⟩
  | cons c cs ih =>
    cases hc : Instruction.ofSymbol? c with
    | none =>
      rw [List.filter_cons_of_neg (by simp [hc])] at hread
      have hnext : SameCode s ⟨s'.code, s'.pending, s'.position.after c⟩ := ⟨h.code, h.opens⟩
      obtain ⟨t', hrest, hsame⟩ := ih hnext hread
      refine ⟨t', ?_, hsame⟩
      rw [List.foldlM_cons, read_comment hc]
      exact hrest
    | some i =>
      rw [List.filter_cons_of_pos (by simp [hc]), List.foldlM_cons] at hread
      cases hfirst : s.read limit c with
      | error e => simp [hfirst, bind, Except.bind] at hread
      | ok u =>
        rw [hfirst] at hread
        obtain ⟨u', hfirst', hnext⟩ := h.read hfirst
        obtain ⟨t', hrest, hsame⟩ := ih hnext hread
        refine ⟨t', ?_, hsame⟩
        rw [List.foldlM_cons, hfirst']
        exact hrest

end SameCode

/-- Parsing finds the block that the commands of a text spell, if it is not nested too deeply. -/
theorem parse_eq_ok_iff {text : String} {limit : Nat} {p : Program} :
    parse text limit = .ok p ↔ ∃ b, Spells b (commands text) ∧ b.depth ≤ limit ∧ p = b.program := by
  constructor
  · exact spells_of_parse
  · rintro ⟨b, spells, deep, rfl⟩
    have room : ({} : ParseState).pending.size + b.depth ≤ limit := by simpa using deep
    obtain ⟨position, hread⟩ := spells.foldlM_read {} room
    have hstart : SameCode {} {} := ⟨rfl, rfl⟩
    obtain ⟨t, hread', hsame⟩ := hstart.foldlM_read hread
    have hempty : t.pending[0]? = none := by
      have hsize := hsame.size_pending
      simpa using hsize
    have hcode : t.code = (b.flatten 0).toArray := by simpa using hsame.code
    simp only [parse, hread', bind, Except.bind, ParseState.finish, hempty, hcode, Block.program]

theorem commands_append (first second : String) :
    commands (first ++ second) = commands first ++ commands second := by
  simp [commands]

/-- Texts in a row. If two texts parse, so does the one behind the other, to both programs in a row. A run of
that ends as a run of the first program does, unless it finishes; then it ends as a run of the second does
in the world that the first one left. A move refused there has its place behind the first program. -/
theorem parse_append_runs {first second : String} {limit : Nat} {p q : Program}
    (hp : parse first limit = .ok p) (hq : parse second limit = .ok q) :
    parse (first ++ second) limit = .ok (p.append q) ∧
      ∀ (policy : EndOfInput) (w w' : World) (e : Ending), w.tape.pointer < w.tape.capacity →
        (Interpreter.Ends (p.append q) policy w e w' ↔
          (e ≠ .finished ∧ Interpreter.Ends p policy w e w') ∨
            ∃ w₁ e', Interpreter.Ends p policy w .finished w₁ ∧
              Interpreter.Ends q policy w₁ e' w' ∧ e = e'.shift p.size) := by
  obtain ⟨b, spells, deep, rfl⟩ := spells_of_parse hp
  obtain ⟨c, spells', deep', rfl⟩ := spells_of_parse hq
  constructor
  · rw [← Block.program_append]
    refine parse_eq_ok_iff.mpr ⟨b.append c, ?_, ?_, rfl⟩
    · rw [commands_append]
      exact spells.append spells'
    · rw [Block.depth_append]
      exact max_le deep deep'
  · intro policy w w' e onCell
    exact Block.ends_append_iff onCell

/-- A move out of the tape in the second text, at its third command, is the seventh of both. -/
theorem parse_append_runs_fault :
    ∃ p q : Program, parse "+[-] é" 1 = .ok p ∧ parse "+[<]" 1 = .ok q ∧
      parse "+[-] é+[<]" 1 = .ok (p.append q) ∧
      Interpreter.Ends (p.append q) .zero ⟨Tape.new 1, {}, {}⟩ (.faulted (.outOfTape 6 0))
        ⟨⟨#[1], 0⟩, {}, {}⟩ := by
  have hp : parse "+[-] é" 1 = .ok ⟨#[.add 1, .loopOpen 4, .add (-1), .loopClose 2]⟩ := by decide
  have hq : parse "+[<]" 1 = .ok ⟨#[.add 1, .loopOpen 4, .move (-1), .loopClose 2]⟩ := by decide
  have onCell : (Tape.new 1).pointer < (Tape.new 1).capacity := by decide
  obtain ⟨hparse, hruns⟩ := parse_append_runs hp hq
  refine ⟨_, _, hp, hq, hparse, ?_⟩
  refine (hruns .zero ⟨Tape.new 1, {}, {}⟩ _ _ onCell).mpr (.inr ⟨⟨Tape.new 1, {}, {}⟩,
    .faulted (.outOfTape 2 0), ?_, ?_, rfl⟩)
  · exact ⟨5, ⟨Tape.new 1, 4, {}, {}⟩, by decide, rfl⟩
  · exact ⟨3, ⟨⟨#[1], 0⟩, 2, {}, {}⟩, by decide, rfl⟩

end Source

end TapeLang
