import TapeLang.Proofs.Source.Brackets
import TapeLang.Proofs.Block.Simulation

/-!
# The tree of a text

A text that parses spells one block, and its program is that block laid flat. While the text is being
read, the code is the outermost block so far, an open still without target, the next block, and so on.
-/

namespace TapeLang.Source

open Interpreter

/-- The commands a block is written with. -/
inductive Spells : Block → List Char → Prop where
  | done : Spells .done []
  | act {a : Action} {c : Char} {rest : Block} {cs : List Char}
      (symbol : Instruction.ofSymbol? c = some a.instruction) (tail : Spells rest cs) :
      Spells (.act a rest) (c :: cs)
  | loop {body rest : Block} {cs ds : List Char} (inside : Spells body cs)
      (tail : Spells rest ds) : Spells (.loop body rest) ('[' :: cs ++ ']' :: ds)

theorem Spells.append {b c : Block} {cs ds : List Char} (hb : Spells b cs) (hc : Spells c ds) :
    Spells (b.append c) (cs ++ ds) := by
  induction hb with
  | done => exact hc
  | act symbol _ ih => exact .act symbol ih
  | @loop body rest cs ds' inside _ _ ihTail =>
    rw [List.append_assoc, List.cons_append]
    exact .loop inside ihTail

/-- A block ends at the end of the text or in front of a close. -/
def Ends (rest : List Char) : Prop :=
  rest.head? = none ∨ rest.head? = some ']'

/-- Commands are not read in two ways: the block at the front of a text is determined. -/
theorem Spells.unique {b b' : Block} {cs cs' xs xs' : List Char} (h : Spells b cs)
    (h' : Spells b' cs') (hxs : Ends xs) (hxs' : Ends xs') (same : cs ++ xs = cs' ++ xs') :
    b = b' ∧ cs = cs' := by
  induction h generalizing b' cs' xs xs' with
  | done =>
    rw [List.nil_append] at same
    subst same
    cases h' with
    | done => exact ⟨rfl, rfl⟩
    | @act a c _ _ symbol _ =>
      rcases hxs with hxs | hxs
      · simp at hxs
      · obtain rfl : c = ']' := by simpa using hxs
        cases a <;> simp [Instruction.ofSymbol?, Action.instruction] at symbol
    | loop => rcases hxs with hxs | hxs <;> simp at hxs
  | @act a c rest cs symbol tail ih =>
    cases h' with
    | done =>
      rw [List.nil_append] at same
      subst same
      rcases hxs' with hxs' | hxs'
      · simp at hxs'
      · obtain rfl : c = ']' := by simpa using hxs'
        cases a <;> simp [Instruction.ofSymbol?, Action.instruction] at symbol
    | @act a' c' _ _ symbol' tail' =>
      obtain ⟨rfl, hrest⟩ := List.cons.inj same
      obtain ⟨rfl, rfl⟩ := ih tail' hxs hxs' hrest
      obtain rfl : a = a' := by
        have := Option.some.inj (symbol.symm.trans symbol')
        cases a <;> cases a' <;> simp_all [Action.instruction]
      exact ⟨rfl, rfl⟩
    | loop =>
      obtain ⟨rfl, -⟩ := List.cons.inj same
      cases a <;> simp [Instruction.ofSymbol?, Action.instruction] at symbol
  | @loop body rest cs ds inside tail ihInside ihTail =>
    cases h' with
    | done =>
      rw [List.nil_append] at same
      subst same
      rcases hxs' with hxs' | hxs' <;> simp at hxs'
    | @act a _ _ _ symbol _ =>
      obtain ⟨rfl, -⟩ := List.cons.inj same
      cases a <;> simp [Instruction.ofSymbol?, Action.instruction] at symbol
    | @loop body' rest' cs' ds' inside' tail' =>
      simp only [List.cons_append, List.append_assoc, List.cons.injEq, true_and] at same
      obtain ⟨rfl, rfl⟩ := ihInside inside' (.inr rfl) (.inr rfl) same
      obtain ⟨rfl, rfl⟩ := ihTail tail' hxs hxs' (List.cons.inj (List.append_cancel_left same)).2
      exact ⟨rfl, rfl⟩

theorem Spells.unique_block {b b' : Block} {cs : List Char} (h : Spells b cs)
    (h' : Spells b' cs) : b = b' := by
  have hend : Ends [] := .inl rfl
  exact (h.unique h' hend hend rfl).1

/-- `Unfinished limit cs code opens`: the commands `cs` read so far became `code`, in which the opens at
`opens`, the innermost first, have no target yet. Each of them begins a block of its own. -/
inductive Unfinished (limit : Nat) : List Char → List Instruction → List Nat → Prop where
  | outermost {b : Block} {cs : List Char} (spells : Spells b cs) (deep : b.depth ≤ limit) :
      Unfinished limit cs (b.flatten 0) []
  | inner {b : Block} {cs ds : List Char} {code : List Instruction} {opens : List Nat}
      (outer : Unfinished limit cs code opens) (spells : Spells b ds)
      (deep : b.depth + (opens.length + 1) ≤ limit) :
      Unfinished limit (cs ++ '[' :: ds) (code ++ .loopOpen 0 :: b.flatten (code.length + 1))
        (code.length :: opens)

namespace Unfinished

variable {limit : Nat} {cs ds : List Char} {code : List Instruction} {opens : List Nat} {b : Block}

theorem length_le (h : Unfinished limit cs code opens) : opens.length ≤ limit := by
  cases h with
  | outermost => simp
  | inner _ _ deep =>
    rw [List.length_cons]
    omega

/-- The innermost block grows at its end. -/
theorem extend (h : Unfinished limit cs code opens) (spells : Spells b ds)
    (deep : b.depth + opens.length ≤ limit) :
    Unfinished limit (cs ++ ds) (code ++ b.flatten code.length) opens := by
  cases h with
  | @outermost b' cs spells' deep' =>
    have hdeep : (b'.append b).depth ≤ limit := by
      rw [Block.depth_append]
      exact max_le deep' (by simpa using deep)
    have hcode : (b'.append b).flatten 0 = b'.flatten 0 ++ b.flatten (b'.flatten 0).length := by
      rw [Block.flatten_append, Block.length_flatten, Nat.zero_add]
    rw [← hcode]
    exact .outermost (spells'.append spells) hdeep
  | @inner b' cs ds' code opens outer spells' deep' =>
    have hdeep : (b'.append b).depth + (opens.length + 1) ≤ limit := by
      rw [Block.depth_append]
      simp only [List.length_cons] at deep
      omega
    have hcode : code ++ .loopOpen 0 :: (b'.append b).flatten (code.length + 1) =
        (code ++ .loopOpen 0 :: b'.flatten (code.length + 1)) ++
          b.flatten (code ++ Instruction.loopOpen 0 :: b'.flatten (code.length + 1)).length := by
      have hstart : (code ++ Instruction.loopOpen 0 :: b'.flatten (code.length + 1)).length =
          code.length + 1 + b'.size := by
        simp
        omega
      rw [Block.flatten_append, hstart, List.append_assoc, List.cons_append]
    rw [← hcode, List.append_assoc, List.cons_append]
    exact .inner outer (spells'.append spells) hdeep

theorem opened (h : Unfinished limit cs code opens) (room : opens.length < limit) :
    Unfinished limit (cs ++ ['[']) (code ++ [.loopOpen 0]) (code.length :: opens) :=
  .inner h .done (by simp only [Block.depth]; omega)

/-- A close completes the innermost block to a loop of the one around it. -/
theorem closed {k : Nat} (h : Unfinished limit cs code (k :: opens)) :
    Unfinished limit (cs ++ [']'])
      (code.set k (.loopOpen (code.length + 1)) ++ [.loopClose (k + 1)]) opens := by
  cases h with
  | @inner b cs ds code opens outer spells deep =>
    have hdeep : (Block.loop b .done).depth + opens.length ≤ limit := by
      simp only [Block.depth]
      omega
    have hnext := outer.extend (.loop spells .done) hdeep
    have hcode : (code ++ .loopOpen 0 :: b.flatten (code.length + 1)).set code.length
          (.loopOpen ((code ++ .loopOpen 0 :: b.flatten (code.length + 1)).length + 1)) ++
          [.loopClose (code.length + 1)] =
        code ++ (Block.loop b .done).flatten code.length := by
      have hlength : (code ++ Instruction.loopOpen 0 :: b.flatten (code.length + 1)).length + 1 =
          code.length + 1 + b.size + 1 := by
        simp
        omega
      rw [hlength]
      simp [Block.flatten]
    rw [hcode, List.append_assoc, List.cons_append]
    exact hnext

end Unfinished

/-- The state of a reader whose commands so far are unfinished code. -/
def Drafted (limit : Nat) (cs : List Char) (s : ParseState) : Prop :=
  Unfinished limit (cs.filter fun c => (Instruction.ofSymbol? c).isSome) s.code.toList
    (s.pending.toList.map Prod.fst).reverse

theorem drafted_read {limit : Nat} {cs : List Char} {c : Char} {s s' : ParseState}
    (h : Drafted limit cs s) (hread : s.read limit c = .ok s') : Drafted limit (cs ++ [c]) s' := by
  unfold Drafted at h ⊢
  rw [List.filter_append]
  rcases symbol_cases c with ⟨hc, -⟩ | ⟨rfl, hc⟩ | ⟨rfl, hc⟩ | ⟨i, hc, hi, -⟩
  · obtain rfl := Except.ok.inj ((read_comment hc).symm.trans hread)
    simpa [hc] using h
  · by_cases room : s.pending.size < limit
    · obtain rfl := Except.ok.inj ((read_open room).symm.trans hread)
      simpa [hc] using h.opened (by simpa using room)
    · rw [read_open_refused (by omega)] at hread
      simp at hread
  · cases htop : s.pending.back? with
    | none => simp [read_close_refused htop] at hread
    | some top =>
      obtain ⟨i, position⟩ := top
      obtain rfl := Except.ok.inj ((read_close htop).symm.trans hread)
      rw [← Array.getLast?_toList] at htop
      obtain ⟨front, hfront⟩ := List.getLast?_eq_some_iff.mp htop
      rw [hfront] at h
      simp only [List.map_append, List.map_cons, List.map_nil, List.reverse_append,
        List.reverse_cons, List.reverse_nil, List.nil_append, List.singleton_append] at h
      simpa [hc, hfront] using h.closed
  · obtain rfl := Except.ok.inj ((read_plain hc hi).symm.trans hread)
    obtain ⟨a, rfl⟩ : ∃ a : Action, i = a.instruction := by
      rcases instruction_cases i with ha | ⟨t, rfl⟩ | ⟨t, rfl⟩
      · exact ha
      · simp [Instruction.target?] at hi
      · simp [Instruction.target?] at hi
    have hdeep : (Block.act a .done).depth +
        (s.pending.toList.map Prod.fst).reverse.length ≤ limit := by
      have := h.length_le
      simp only [Block.depth]
      omega
    simpa [hc, Block.flatten] using h.extend (.act hc .done) hdeep

private theorem drafted_foldlM {limit : Nat} {cs ds : List Char} {s s' : ParseState}
    (h : Drafted limit cs s) (hread : ds.foldlM (ParseState.read limit) s = .ok s') :
    Drafted limit (cs ++ ds) s' := by
  induction ds generalizing cs s with
  | nil =>
    obtain rfl := Except.ok.inj hread
    simpa using h
  | cons c ds ih =>
    rw [List.foldlM_cons] at hread
    cases hfirst : s.read limit c with
    | error e => simp [hfirst, bind, Except.bind] at hread
    | ok t =>
      rw [hfirst] at hread
      have := ih (drafted_read h hfirst) hread
      rwa [List.append_assoc, List.singleton_append] at this

/-- A text that parses spells a block, nested within the limit, and its program is that block laid
flat. -/
theorem spells_of_parse {text : String} {limit : Nat} {p : Program}
    (parsed : parse text limit = .ok p) :
    ∃ b, Spells b (commands text) ∧ b.depth ≤ limit ∧ p = b.program := by
  unfold parse at parsed
  cases hread : text.toList.foldlM (ParseState.read limit) {} with
  | error e => simp [hread, bind, Except.bind] at parsed
  | ok s =>
    rw [hread] at parsed
    have hstart : Drafted limit [] {} := .outermost .done (Nat.zero_le _)
    have hdraft := drafted_foldlM hstart hread
    have hfinish : s.finish = .ok p := parsed
    unfold ParseState.finish at hfinish
    cases hbottom : s.pending[0]? with
    | some top => simp [hbottom] at hfinish
    | none =>
      have hempty : s.pending.toList = [] := by
        simpa [Array.getElem?_eq_none_iff] using hbottom
      simp only [hbottom, Except.ok.injEq] at hfinish
      unfold Drafted at hdraft
      rw [hempty, List.nil_append] at hdraft
      -- With no open pending, only the outermost block is left.
      generalize hcode : s.code.toList = code at hdraft
      generalize hcs : text.toList.filter (fun c => (Instruction.ofSymbol? c).isSome) = cs at hdraft
      cases hdraft with
      | @outermost b _ spells deep =>
        refine ⟨b, ?_, deep, ?_⟩
        · rwa [commands, hcs]
        · rw [← hfinish, Block.program, ← hcode]

/-- A text that parses has one tree, and its program runs as the tree evaluates: it ends with some
result, tape and channels exactly when the tree evaluates to them. -/
theorem run_iff_evaluates {text : String} {limit : Nat} {p : Program}
    (parsed : parse text limit = .ok p) :
    ∃ b, Spells b (commands text) ∧ (∀ b', Spells b' (commands text) → b' = b) ∧
      ∀ (policy : EndOfInput) (w w' : World) (e : Ending), w.tape.pointer < w.tape.capacity →
        ((∃ fuel s, run fuel p policy w.tape w.input w.output = some (e, s) ∧ s.world = w') ↔
          ∃ stop, e = Block.endingOf stop ∧ Block.Evaluates policy 0 b w stop w') := by
  obtain ⟨b, spells, -, rfl⟩ := spells_of_parse parsed
  refine ⟨b, spells, fun b' spells' => spells'.unique_block spells, ?_⟩
  intro policy w w' e onCell
  exact Block.run_program_iff b policy onCell

/-- A move out of the tape stops the tree of a text inside its loop, at the third command. -/
theorem run_iff_evaluates_fault :
    parse "+[ < ]" 1 = .ok ⟨#[.add 1, .loopOpen 4, .move (-1), .loopClose 2]⟩ ∧
      (Tape.new 1).pointer < (Tape.new 1).capacity ∧
      ∃ b, Spells b (commands "+[ < ]") ∧
        Block.Evaluates .zero 0 b ⟨Tape.new 1, {}, {}⟩ (some (.outOfTape 2 0))
          ⟨⟨#[1], 0⟩, {}, {}⟩ := by
  have parsed : parse "+[ < ]" 1 =
      .ok ⟨#[.add 1, .loopOpen 4, .move (-1), .loopClose 2]⟩ := by decide
  have onCell : (Tape.new 1).pointer < (Tape.new 1).capacity := by decide
  refine ⟨parsed, onCell, ?_⟩
  obtain ⟨b, spells, -, h⟩ := run_iff_evaluates parsed
  have ended := (h .zero ⟨Tape.new 1, {}, {}⟩ ⟨⟨#[1], 0⟩, {}, {}⟩ (.faulted (.outOfTape 2 0))
    onCell).mp ⟨3, ⟨⟨#[1], 0⟩, 2, {}, {}⟩, by decide, rfl⟩
  obtain ⟨_ | f, hstop, evaluates⟩ := ended
  · simp [Block.endingOf] at hstop
  · simp only [Block.endingOf, Ending.faulted.injEq] at hstop
    exact ⟨b, spells, hstop ▸ evaluates⟩

end TapeLang.Source
