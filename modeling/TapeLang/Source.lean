import TapeLang.Program

/-!
# Source texts

The eight symbols are commands and every other character is a comment. Loops are matched from left
to right with a stack of the opens still pending, and the first bracket that breaks the nesting is
reported with its place in the text.
-/

namespace TapeLang

/-- Line and column of a character, both counted from one. -/
structure Position where
  line : Nat
  column : Nat
  deriving DecidableEq, Repr

namespace Position

def start : Position :=
  ⟨1, 1⟩

/-- The position behind a character. -/
def after (p : Position) (c : Char) : Position :=
  if c = '\n' then ⟨p.line + 1, 1⟩ else ⟨p.line, p.column + 1⟩

end Position

inductive ParseErrorKind where
  | unmatchedOpen
  | unmatchedClose
  | nestingTooDeep (limit : Nat)
  deriving DecidableEq, Repr

structure ParseError where
  kind : ParseErrorKind
  /-- The number of commands before the bracket. -/
  index : Nat
  position : Position
  deriving DecidableEq, Repr

def ParseError.message (e : ParseError) : String :=
  let what := match e.kind with
    | .unmatchedOpen => "unmatched '['"
    | .unmatchedClose => "unmatched ']'"
    | .nestingTooDeep limit => "loop nesting exceeds limit " ++ toString limit
  toString e.position.line ++ ":" ++ toString e.position.column ++ ": " ++ what
    ++ " at instruction " ++ toString e.index

namespace Source

/-- The deepest nesting accepted when nothing else is asked for. -/
def defaultDepth : Nat := 256

structure ParseState where
  code : Array Instruction := #[]
  /-- The opens not yet closed, outermost first. -/
  pending : Array (Nat × Position) := #[]
  position : Position := .start
  deriving DecidableEq

namespace ParseState

def openLoop (limit : Nat) : ParseState → Except ParseError ParseState
  | ⟨code, pending, position⟩ =>
    if limit ≤ pending.size then .error ⟨.nestingTooDeep limit, code.size, position⟩
    else .ok ⟨code.push (.loopOpen 0), pending.push (code.size, position), position⟩

def closeLoop : ParseState → Except ParseError ParseState
  | ⟨code, pending, position⟩ =>
    match pending.back? with
    | none => .error ⟨.unmatchedClose, code.size, position⟩
    | some (i, _) =>
      let close := code.size
      let code := code.setIfInBounds i (.loopOpen (close + 1))
      .ok ⟨code.push (.loopClose (i + 1)), pending.pop, position⟩

/-- Reads one character. -/
def read (limit : Nat) (s : ParseState) (c : Char) : Except ParseError ParseState :=
  let next : Except ParseError ParseState := match Instruction.ofSymbol? c with
    | none => .ok s
    | some (.loopOpen _) => s.openLoop limit
    | some (.loopClose _) => s.closeLoop
    | some i => .ok { s with code := s.code.push i }
  next.map fun s => { s with position := s.position.after c }

/-- At the end of the text the outermost pending open is the one reported. -/
def finish (s : ParseState) : Except ParseError Program :=
  match s.pending[0]? with
  | none => .ok ⟨s.code⟩
  | some (i, position) => .error ⟨.unmatchedOpen, i, position⟩

end ParseState

/-- The commands of a text, without its comments. -/
def commands (text : String) : List Char :=
  text.toList.filter fun c => (Instruction.ofSymbol? c).isSome

def parse (text : String) (limit : Nat) : Except ParseError Program := do
  let s ← text.toList.foldlM (ParseState.read limit) {}
  s.finish

end Source

end TapeLang
