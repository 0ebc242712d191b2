import TapeLang.Command.Arguments

/-!
# The command

Carries out a request in a file tree. The source is the content of a file if there is one at that path,
and otherwise the argument itself.
-/

namespace TapeLang.Command

def versionText : String := "bfjit 0.1.0\n"

def helpText : String :=
  "Run programs for the eight-instruction tape machine\n\n" ++
  "Usage: bfjit [OPTIONS] <SOURCE>\n\n" ++
  "Options:\n" ++
  "  -s, --memory-size <N>     number of tape cells\n" ++
  "  -d, --stack-depth <N>     deepest loop nesting accepted\n" ++
  "  -i, --interpret           interpret instead of compiling to native code\n" ++
  "      --eof <POLICY>        zero, unchanged or minus-one\n" ++
  "  -o, --output <PATH>       write a standalone executable instead of running\n" ++
  "      --module-name <NAME>  name embedded in the module\n" ++
  "      --inspect             print the name and digest of a module\n" ++
  "  -h, --help                print this text\n" ++
  "  -V, --version             print the version\n"

/-- Where the standard output goes. -/
inductive Device where
  | collected
  /-- Every write fails because the device is full. -/
  | full
  deriving DecidableEq, Repr

/-- The bytes held back before they are written to the device. -/
def bufferSize : Nat := 8192

def deviceFull : SteadyFailure := ⟨.ofErrno 28, rfl⟩

/-- The standard output as a channel: bytes go into a buffer, so a full device shows when the buffer
overflows, or at the flush if anything was written. -/
def Device.channel : Device → Output
  | .collected => {}
  | .full => {
      events := List.replicate bufferSize .taken
      standing := some deviceFull
      flushRule := .failsOnceWritten deviceFull.val }

/-- The bytes that arrive at the device. -/
def Device.arrived (d : Device) (bytes : Bytes) : Bytes :=
  match d with
  | .collected => bytes
  | .full => []

structure Outcome where
  exit : Nat
  out : Bytes := []
  err : String := ""
  deriving DecidableEq, Repr

/-- The report of an error and the exit code for it. -/
def report (e : SessionError) : Outcome :=
  match e with
  | .runtime f => { exit := 3, err := "runtime error: " ++ f.message ++ "\n" }
  | e => { exit := 1, err := "error: " ++ e.message ++ "\n" }

def Outcome.after (o : Outcome) (err : String) : Outcome :=
  { o with err := err ++ o.err }

def cannotRead (path : String) (f : Failure) : Outcome :=
  { exit := 1, err := "error: cannot read '" ++ path ++ "': " ++ f.text ++ "\n" }

def infoText (info : Module.ModuleInfo) : String :=
  "name: " ++ info.name ++ "\n" ++
  "digest: " ++ Hex.encode info.digest ++ "\n" ++
  "tape: " ++ toString info.tapeCapacity ++ " cells\n" ++
  "entry: 0x" ++ Hex.ofNat info.entry ++ "\n"

/-- Text straight to the standard output; there is no going on if the device refuses it. -/
def print (device : Device) (text : String) : Outcome :=
  match device with
  | .collected => { exit := 0, out := Module.textBytes text }
  | .full => { exit := 101, err := "failed printing to stdout: " ++ deviceFull.val.text ++ "\n" }

def inspectFile (t : FileTree) (device : Device) (path : String) : Outcome :=
  match t.read path with
  | .error f => cannotRead path f
  | .ok bytes =>
    match Module.inspect .blake3 bytes with
    | .ok info => print device (infoText info)
    | .error (.error d) =>
      { exit := 1, err := "error: '" ++ path ++ "': " ++ (Module.EmitError.malformed d).message ++ "\n" }
    | .error (.breach _) => { exit := 101 }

/-- A path to a file stands for its content; anything else is program text. -/
def readSource (t : FileTree) (argument : String) : Except Failure String :=
  if t.isFile argument then do
    let bytes ← t.read argument
    match String.fromUTF8? ⟨bytes.toArray⟩ with
    | some text => return text
    | none => .error ⟨.invalidData, "stream did not contain valid UTF-8"⟩
  else .ok argument

/-- The module's name if none is given: the stem of the file. -/
def defaultName (path : String) : String :=
  (Path.fileStem? path).getD "module"

def emitModule (t : FileTree) (s : Session) (name? : Option String) (path : String) :
    FileTree × Outcome :=
  let name := name?.getD (defaultName path)
  let notice := "creating module " ++ name ++ " -> " ++ path ++ "\n"
  match s.emit t name path with
  | (t, .ok ()) => (t, { exit := 0, err := notice })
  | (t, .error (.error e)) => (t, (report e).after notice)
  | (t, .error (.breach _)) => (t, { exit := 101, err := notice })

def runSession (platform : Platform) (s : Session) (fuel : Nat) (interpret : Bool) (input : Input)
    (device : Device) : Option Outcome :=
  match if interpret then .ok s else s.compile platform with
  | .error (.error e) => some (report e)
  | .error (.breach _) => some { exit := 101 }
  | .ok s =>
    match s.run platform fuel input device.channel with
    | none => none
    | some .crashed => some { exit := 139 }
    | some (.ended e _ _ output) =>
      let out := device.arrived output.written.toList
      match e with
      | .finished => some { exit := 0, out }
      | .faulted f => some { report (.runtime f) with out }
      | .noCell => some { exit := 101, out }

/-- Carries out options; `none` if the program has not ended within the fuel. -/
def perform (platform : Platform) (fuel : Nat) (t : FileTree) (input : Input) (device : Device)
    (o : Options) : Option (FileTree × Outcome) :=
  if o.inspect then some (t, inspectFile t device o.source)
  else match readSource t o.source with
    | .error f => some (t, cannotRead o.source f)
    | .ok text =>
      match Session.new platform text o.config with
      | .error e => some (t, report e)
      | .ok s =>
        match o.output with
        | some path => some (emitModule t s o.moduleName path)
        | none => (runSession platform s fuel o.interpret input device).map (t, ·)

def respond (platform : Platform) (fuel : Nat) (t : FileTree) (input : Input) (device : Device) :
    Request → Option (FileTree × Outcome)
  | .version => some (t, { exit := 0, out := device.arrived (Module.textBytes versionText) })
  | .help => some (t, { exit := 0, out := device.arrived (Module.textBytes helpText) })
  | .perform o => perform platform fuel t input device o

end TapeLang.Command
