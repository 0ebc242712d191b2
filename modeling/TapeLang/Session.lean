import TapeLang.Source
import TapeLang.Native.Invocation
import TapeLang.Module.Emitter

/-!
# Sessions

A session holds one program, its settings, a tape and, once compiled, its code. Every run starts on a
cleared tape, so runs do not depend on what happened before. Memory, and the host that calls compiled
code, are those of the platform it runs on.
-/

namespace TapeLang

structure Config where
  capacity : Nat := Tape.defaultCapacity
  depth : Nat := Source.defaultDepth
  policy : EndOfInput := .zero
  deriving DecidableEq, Repr

inductive ConfigError where
  | zeroCapacity
  | zeroDepth
  | tapeTooLarge (capacity : Nat)
  deriving DecidableEq, Repr

def ConfigError.message : ConfigError → String
  | .zeroCapacity => "tape capacity must be greater than zero"
  | .zeroDepth => "maximum nesting depth must be greater than zero"
  | .tapeTooLarge capacity => "cannot allocate a tape of " ++ toString capacity ++ " cells"

def Config.error? (c : Config) : Option ConfigError :=
  if c.capacity = 0 then some .zeroCapacity
  else if c.depth = 0 then some .zeroDepth
  else none

/-- Anything that can go wrong between a source text and the end of a run. -/
inductive SessionError where
  | config (e : ConfigError)
  | parse (e : ParseError)
  | codegen (e : Native.CodegenError)
  | runtime (f : Fault)
  | emit (e : Module.EmitError)
  deriving DecidableEq, Repr

def SessionError.message : SessionError → String
  | .config e => "invalid configuration: " ++ e.message
  | .parse e => "parse error: " ++ e.message
  | .codegen e => "code generation failed: " ++ e.message
  | .runtime f => "runtime error: " ++ f.message
  | .emit e => "cannot emit module: " ++ e.message

/-- What a session gets from the machine it runs on. -/
structure Platform where
  /-- Whether there is memory for so many cells. -/
  allocates : Nat → Bool
  /-- What keeps code of a size from being mapped. -/
  mapFailure? : Nat → Option Failure
  /-- What calls compiled code. -/
  host : Native.Host

structure Session where
  config : Config
  program : Program
  tape : Tape
  compiled : Option Native.CompiledProgram
  deriving DecidableEq

/-- The result of a run: how it ended, and what it left. -/
inductive SessionRun where
  | ended (e : Ending) (s : Session) (input : Input) (output : Output)
  | crashed
  deriving DecidableEq

namespace Session

/-- Checks the settings, then reads the text, then allocates the tape. -/
def new (platform : Platform) (text : String) (config : Config) : Except SessionError Session :=
  match config.error? with
  | some e => .error (.config e)
  | none =>
    match Source.parse text config.depth with
    | .error e => .error (.parse e)
    | .ok program =>
      match Tape.allocate? platform.allocates config.capacity with
      | none => .error (.config (.tapeTooLarge config.capacity))
      | some tape => .ok ⟨config, program, tape, none⟩

/-- From here on runs use compiled code, if it can be mapped. Compiling again changes nothing. -/
def compile (platform : Platform) (s : Session) : Except (Refusal SessionError) Session :=
  match s.compiled with
  | some _ => .ok s
  | none =>
    match Native.CompiledProgram.compile s.program s.config.policy with
    | .error r => .error (r.map .codegen)
    | .ok c =>
      match platform.mapFailure? c.code.bytes.length with
      | some f => .error (.error (.codegen (.mapping f)))
      | none => .ok { s with compiled := some c }

/-- The output is flushed once after the run. A failure to flush counts only if the run went well. -/
def settle (e : Ending) (flushed : Except Failure Unit) : Ending :=
  match e, flushed with
  | .finished, .error f => .faulted (.channel f)
  | e, _ => e

/-- One run of the program, interpreted or compiled. -/
def execute (platform : Platform) (s : Session) (fuel : Nat) (input : Input) (output : Output) :
    Option Native.CallEnding :=
  let tape := s.tape.reset
  match s.compiled with
  | some c => c.invoke platform.host fuel tape input output
  | none =>
    match Interpreter.run fuel s.program s.config.policy tape input output with
    | some (e, final) => some (.ended e final.tape final.input final.output)
    | none => none

/-- Runs the program on a cleared tape; `none` if it has not ended within the fuel. -/
def run (platform : Platform) (s : Session) (fuel : Nat) (input : Input) (output : Output) :
    Option SessionRun :=
  match s.execute platform fuel input output with
  | none => none
  | some .crashed => some .crashed
  | some (.ended e tape input output) =>
    let (flushed, output) := output.flush
    some (.ended (settle e flushed) { s with tape } input output)

/-- Writes the program as a module. -/
def emit (s : Session) (t : FileTree) (name path : String) :
    FileTree × Except (Refusal SessionError) Unit :=
  let emitter : Module.Emitter := ⟨s.config.capacity, s.config.policy⟩
  match emitter.emit .blake3 t s.program name path with
  | (t, .ok ()) => (t, .ok ())
  | (t, .error r) => (t, .error (r.map .emit))

end Session

end TapeLang
