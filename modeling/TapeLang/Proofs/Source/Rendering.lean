import TapeLang.Proofs.Source.Tree
import TapeLang.Proofs.Block.Nesting

/-!
# Parsing and rendering

A block is between a text and its program: the text spells it, and the program is the block laid flat.
Rendering a program gives back the commands of a text, and those are read as the same program again.
-/

namespace TapeLang

/-- A move or an addition goes by one, up or down. -/
def Instruction.UnitDelta : Instruction → Prop
  | .move d | .add d => d = 1 ∨ d = -1
  | _ => True

instance (i : Instruction) : Decidable i.UnitDelta :=
  match i with
  | .move d | .add d => inferInstanceAs (Decidable (d = 1 ∨ d = -1))
  | .input | .output | .loopOpen _ | .loopClose _ => inferInstanceAs (Decidable True)

/-- The programs of texts: single steps, and loops that are paired, nested, and not too deep. -/
structure Program.Canonical (p : Program) (limit : Nat) : Prop where
  unit : ∀ instr ∈ p.instructions.toList, instr.UnitDelta
  wellFormed : p.isWellFormed = true
  nested : p.Nested
  shallow : ∀ k, p.depthAt k ≤ limit

namespace Source

open Interpreter

variable {b : Block} {cs : List Char}

private theorem unitDelta_of_symbol {c : Char} {i : Instruction} (h : Instruction.ofSymbol? c = some i) :
    i.UnitDelta := by
  unfold Instruction.ofSymbol? at h
  split at h <;> simp at h <;> subst h <;> simp [Instruction.UnitDelta]

/-- An action of one step has a symbol that stands for it. -/
theorem exists_symbol {a : Action} (h : a.instruction.UnitDelta) :
    ∃ c, a.instruction.symbol? = some c ∧ Instruction.ofSymbol? c = some a.instruction := by
  cases a with
  | move d =>
    rcases h with rfl | rfl
    · exact ⟨'>', rfl, rfl⟩
    · exact ⟨'<', rfl, rfl⟩
  | add d =>
    rcases h with rfl | rfl
    · exact ⟨'+', rfl, rfl⟩
    · exact ⟨'-', rfl, rfl⟩
  | input => exact ⟨',', rfl, rfl⟩
  | output => exact ⟨'.', rfl, rfl⟩

namespace Spells

/-- The symbols of a block laid flat are the commands it is written with. -/
theorem symbols (h : Spells b cs) (start : Nat) :
    (b.flatten start).filterMap Instruction.symbol? = cs := by
  induction h generalizing start with
  | done => rfl
  | act symbol _ ih =>
    rw [Block.flatten, List.filterMap_cons_some (Instruction.symbol?_ofSymbol? symbol), ih]
  | loop _ _ ihInside ihTail =>
    simp [Block.flatten, Instruction.symbol?, ihInside, ihTail]

theorem unitDelta (h : Spells b cs) (start : Nat) : ∀ i ∈ b.flatten start, i.UnitDelta := by
  induction h generalizing start with
  | done => simp [Block.flatten]
  | act symbol _ ih =>
    intro i hi
    rcases List.mem_cons.mp hi with rfl | hi
    · exact unitDelta_of_symbol symbol
    · exact ih (start + 1) i hi
  | loop _ _ ihInside ihTail =>
    intro i hi
    simp only [Block.flatten, List.cons_append, List.mem_cons, List.mem_append] at hi
    rcases hi with rfl | hi | rfl | hi
    · trivial
    · exact ihInside _ i hi
    · trivial
    · exact ihTail _ i hi

/-- A block of single steps is written with its symbols. -/
theorem of_unitDelta (b : Block) (start : Nat) (h : ∀ i ∈ b.flatten start, i.UnitDelta) :
    Spells b ((b.flatten start).filterMap Instruction.symbol?) := by
  induction b generalizing start with
  | done => exact .done
  | act a rest ih =>
    rw [Block.flatten] at h ⊢
    obtain ⟨c, hsymbol, hc⟩ := exists_symbol (h _ List.mem_cons_self)
    rw [List.filterMap_cons_some hsymbol]
    exact .act hc (ih (start + 1) fun i hi => h i (List.mem_cons_of_mem _ hi))
  | loop body rest ihBody ihRest =>
    simp only [Block.flatten, List.cons_append, List.mem_cons, List.mem_append] at h
    have hbody := ihBody _ fun i hi => h i (.inr (.inl hi))
    have hrest := ihRest _ fun i hi => h i (.inr (.inr (.inr hi)))
    simpa [Block.flatten, List.filterMap_cons, Instruction.symbol?] using hbody.loop hrest

/-- The commands of a block are read as the block laid flat behind the code so far. Each open is closed
again, so the pending ones are left as they were. -/
theorem foldlM_read (h : Spells b cs) {limit : Nat} (s : ParseState)
    (room : s.pending.size + b.depth ≤ limit) :
    ∃ position, cs.foldlM (ParseState.read limit) s =
      .ok ⟨s.code ++ b.flatten s.code.size, s.pending, position⟩ := by
  induction h generalizing s with
  | done => exact ⟨s.position, by simp [Block.flatten, pure, Except.pure]⟩
  | @act a c rest cs symbol _ ih =>
    have hplain : a.instruction.target? = none := by
      cases a <;> rfl
    obtain ⟨position, hrest⟩ := ih ⟨s.code.push a.instruction, s.pending, s.position.after c⟩ room
    refine ⟨position, ?_⟩
    rw [List.foldlM_cons, read_plain symbol hplain]
    simpa [bind, Except.bind, Block.flatten, ← Array.toList_inj] using hrest
  | @loop body rest cs ds _ _ ihInside ihTail =>
    simp only [Block.depth] at room
    have hopen : s.read limit '[' = _ := read_open (by omega)
    obtain ⟨inner, hinside⟩ := ihInside ⟨s.code.push (.loopOpen 0),
      s.pending.push (s.code.size, s.position), s.position.after '['⟩ (by simp; omega)
    simp only [Array.size_push] at hinside
    have hclose : ParseState.read limit ⟨s.code.push (.loopOpen 0) ++ body.flatten (s.code.size + 1),
        s.pending.push (s.code.size, s.position), inner⟩ ']' = _ :=
      read_close (by rw [Array.back?_push])
    -- The close turns the pending open and the body into a loop.
    have hcode : ((s.code.push (.loopOpen 0) ++ body.flatten (s.code.size + 1)).setIfInBounds
        s.code.size (.loopOpen ((s.code.push (.loopOpen 0) ++
          body.flatten (s.code.size + 1)).size + 1))).push (.loopClose (s.code.size + 1)) =
        s.code ++ (Block.loop body .done).flatten s.code.size := by
      have hsize : (s.code.push (.loopOpen 0) ++ body.flatten (s.code.size + 1)).size + 1 =
          s.code.size + 1 + body.size + 1 := by
        rw [← Array.length_toList]
        simp
        omega
      rw [hsize, ← Array.toList_inj]
      simp [Block.flatten]
    rw [hcode, Array.pop_push] at hclose
    have hsize : (s.code ++ (Block.loop body .done).flatten s.code.size).size =
        s.code.size + 1 + body.size + 1 := by
      rw [← Array.length_toList]
      simp [Block.size]
      omega
    obtain ⟨position, htail⟩ := ihTail ⟨s.code ++ (Block.loop body .done).flatten s.code.size,
      s.pending, inner.after ']'⟩ (by simp only; omega)
    refine ⟨position, ?_⟩
    rw [List.cons_append, List.foldlM_cons, hopen]
    simp only [bind, Except.bind]
    rw [List.foldlM_append, hinside]
    simp only [bind, Except.bind, List.foldlM_cons, hclose]
    rw [htail, hsize]
    simp [Block.flatten, ← Array.toList_inj]

theorem parse_eq {text : String} {limit : Nat} (h : Spells b text.toList) (deep : b.depth ≤ limit) :
    parse text limit = .ok b.program := by
  obtain ⟨position, hread⟩ := h.foldlM_read {} (by simpa using deep)
  simp only [parse, hread, bind, Except.bind, ParseState.finish]
  simp [Block.program]

end Spells

theorem canonical_program {limit : Nat} (spells : Spells b cs) (deep : b.depth ≤ limit) :
    b.program.Canonical limit where
  unit := spells.unitDelta 0
  wellFormed := Program.isWellFormed_iff_paired.mpr b.paired_program
  nested := b.nested_program
  shallow := Block.depth_le_iff.mp deep

/-- A canonical program is that of a block which its rendering spells. -/
theorem spells_of_canonical {p : Program} {limit : Nat} (h : p.Canonical limit) :
    ∃ b, Spells b p.render.toList ∧ b.depth ≤ limit ∧ p = b.program := by
  obtain ⟨b, rfl⟩ := Block.exists_program_eq (Program.isWellFormed_iff_paired.mp h.wellFormed) h.nested
  refine ⟨b, ?_, Block.depth_le_iff.mpr h.shallow, rfl⟩
  rw [Program.render, String.toList_ofList]
  exact .of_unitDelta b 0 h.unit

/-- Parsing and rendering are inverse to each other. The program of a text renders to the text without
its comments; its steps are single, and its loops are paired by their targets, nested, and no deeper
than the limit. Every program like that is the one its rendering is parsed to. -/
theorem parse_render_inverse (limit : Nat) :
    (∀ text p, parse text limit = .ok p →
      p.render = String.ofList (commands text) ∧ p.Canonical limit) ∧
    ∀ p : Program, p.Canonical limit → parse p.render limit = .ok p := by
  constructor
  · intro text p parsed
    obtain ⟨b, spells, deep, rfl⟩ := spells_of_parse parsed
    refine ⟨?_, canonical_program spells deep⟩
    rw [Program.render, ← spells.symbols 0]
    rfl
  · intro p canonical
    obtain ⟨b, spells, deep, rfl⟩ := spells_of_canonical canonical
    exact spells.parse_eq deep

/-- A loop in a loop and one behind it, with a comment: without the comment it is the same program. -/
theorem parse_render_inverse_nested :
    ∃ p : Program, parse "+[>[-]<] é ,[.]" 2 = .ok p ∧ p.render = "+[>[-]<],[.]" ∧ p.Canonical 2 ∧
      parse "+[>[-]<],[.]" 2 = .ok p := by
  have parsed : parse "+[>[-]<] é ,[.]" 2 = .ok ⟨#[.add 1, .loopOpen 8, .move 1, .loopOpen 6,
      .add (-1), .loopClose 4, .move (-1), .loopClose 2, .input, .loopOpen 12, .output,
      .loopClose 10]⟩ := by decide
  obtain ⟨hrender, canonical⟩ := (parse_render_inverse 2).1 _ _ parsed
  have htext : String.ofList (commands "+[>[-]<] é ,[.]") = "+[>[-]<],[.]" := by decide
  have hback := (parse_render_inverse 2).2 _ canonical
  rw [hrender, htext] at hback
  exact ⟨_, parsed, hrender.trans htext, canonical, hback⟩

end Source

end TapeLang
