import TapeLang.Program

/-!
# Blocks

The structure of a source: actions and loops in order, where a loop holds a block of its own. Laid flat
at an index, a block becomes instructions whose loops jump just behind their partners.
-/

namespace TapeLang

/-- A command other than the ends of a loop. -/
inductive Action where
  | move (delta : Int8)
  | add (delta : Int8)
  | input
  | output
  deriving DecidableEq, Repr

def Action.instruction : Action → Instruction
  | .move d => .move d
  | .add d => .add d
  | .input => .input
  | .output => .output

inductive Block where
  | done
  | act (a : Action) (rest : Block)
  | loop (body rest : Block)
  deriving DecidableEq, Repr

namespace Block

/-- The number of instructions; a loop has one at either end. -/
def size : Block → Nat
  | done => 0
  | act _ rest => rest.size + 1
  | loop body rest => body.size + rest.size + 2

/-- How deep the loops are nested. -/
def depth : Block → Nat
  | done => 0
  | act _ rest => rest.depth
  | loop body rest => max (body.depth + 1) rest.depth

/-- The instructions of a block whose first one has the index `start`. -/
def flatten (start : Nat) : Block → List Instruction
  | done => []
  | act a rest => a.instruction :: rest.flatten (start + 1)
  | loop body rest =>
    let close := start + 1 + body.size
    .loopOpen (close + 1) :: body.flatten (start + 1) ++
      .loopClose (start + 1) :: rest.flatten (close + 1)

def program (b : Block) : Program :=
  ⟨(b.flatten 0).toArray⟩

@[simp] theorem length_flatten (b : Block) (start : Nat) : (b.flatten start).length = b.size := by
  induction b generalizing start with
  | done => rfl
  | act a rest ih => simp [flatten, size, ih]
  | loop body rest ihBody ihRest =>
    simp [flatten, size, ihBody, ihRest]
    omega

@[simp] theorem size_program (b : Block) : b.program.size = b.size := by
  simp [program, Program.size]

/-- One block behind another. -/
def append : Block → Block → Block
  | done, c => c
  | act a rest, c => act a (rest.append c)
  | loop body rest, c => loop body (rest.append c)

@[simp] theorem size_append (b c : Block) : (b.append c).size = b.size + c.size := by
  induction b with
  | done => simp [append, size]
  | act a rest ih => simp [append, size, ih]; omega
  | loop body rest _ ih => simp [append, size, ih]; omega

theorem depth_append (b c : Block) : (b.append c).depth = max b.depth c.depth := by
  induction b with
  | done => simp [append, depth]
  | act a rest ih => simp [append, depth, ih]
  | loop body rest _ ih => simp [append, depth, ih, Nat.max_assoc]

theorem flatten_append (b c : Block) (start : Nat) :
    (b.append c).flatten start = b.flatten start ++ c.flatten (start + b.size) := by
  induction b generalizing start with
  | done => rfl
  | act a rest ih =>
    simp [append, flatten, size, ih, Nat.add_assoc, Nat.add_comm 1]
  | loop body rest _ ih =>
    have h : start + 1 + body.size + 1 + rest.size = start + (body.size + rest.size + 2) := by
      omega
    simp [append, flatten, size, ih, h]

end Block

end TapeLang
