import TapeLang.Session

/-!
# Command-line arguments

One source, options with a value and flags, in any order. A value follows its option as the next
argument, behind an equals sign, or, for a short option, directly. Short flags may share one dash, and
behind two dashes alone everything is a source.
-/

namespace TapeLang.Command

/-- Options that take a value. -/
inductive ValueOption where
  | memorySize | stackDepth | endOfInput | output | moduleName
  deriving DecidableEq, Repr

inductive Flag where
  | interpret | inspect | version | help
  deriving DecidableEq, Repr

/-- What a name on the command line switches. -/
inductive Switch where
  | value (o : ValueOption)
  | flag (f : Flag)
  deriving DecidableEq, Repr

def ofLong? : String → Option Switch
  | "memory-size" => some (.value .memorySize)
  | "stack-depth" => some (.value .stackDepth)
  | "eof" => some (.value .endOfInput)
  | "output" => some (.value .output)
  | "module-name" => some (.value .moduleName)
  | "interpret" => some (.flag .interpret)
  | "inspect" => some (.flag .inspect)
  | "version" => some (.flag .version)
  | "help" => some (.flag .help)
  | _ => none

def ofShort? : Char → Option Switch
  | 's' => some (.value .memorySize)
  | 'd' => some (.value .stackDepth)
  | 'o' => some (.value .output)
  | 'i' => some (.flag .interpret)
  | 'V' => some (.flag .version)
  | 'h' => some (.flag .help)
  | _ => none

/-- What the arguments read so far have set. -/
structure Given where
  source : Option String := none
  capacity : Option Nat := none
  depth : Option Nat := none
  policy : Option EndOfInput := none
  output : Option String := none
  moduleName : Option String := none
  interpret : Bool := false
  inspect : Bool := false
  deriving DecidableEq, Repr

structure Options where
  source : String
  config : Config
  output : Option String
  moduleName : Option String
  interpret : Bool
  inspect : Bool
  deriving DecidableEq, Repr

inductive Request where
  | version
  | help
  | perform (o : Options)
  deriving DecidableEq, Repr

/-- A number: digits, perhaps behind a plus sign, that fits in a word. -/
def number? (text : String) : Option Nat :=
  let digits : List Char := match text.toList with
    | '+' :: rest => rest
    | all => all
  let value : Nat := digits.foldl (fun n c => 10 * n + (c.toNat - 48)) 0
  if digits ≠ [] ∧ digits.all (fun c => '0' ≤ c ∧ c ≤ '9') ∧ value < wordLimit then some value
  else none

namespace Given

/-- Sets an option. Each may be given once, and its value has to make sense. -/
def setValue? (g : Given) (o : ValueOption) (text : String) : Option Given :=
  match o with
  | .memorySize =>
    if g.capacity.isSome then none
    else (number? text).map fun n => { g with capacity := some n }
  | .stackDepth =>
    if g.depth.isSome then none else (number? text).map fun n => { g with depth := some n }
  | .endOfInput =>
    if g.policy.isSome then none
    else (EndOfInput.ofName? text).map fun p => { g with policy := some p }
  | .output =>
    if g.output.isSome ∨ text = "" then none else some { g with output := some text }
  | .moduleName =>
    if g.moduleName.isSome then none else some { g with moduleName := some text }

def setSource? (g : Given) (text : String) : Option Given :=
  if g.source.isSome then none else some { g with source := some text }

/-- The request, if the source is there and the options go together. -/
def finish? (g : Given) : Option Request :=
  match g.source with
  | none => none
  | some source =>
    if (g.moduleName.isSome ∧ g.output.isNone) ∨ (g.inspect ∧ (g.output.isSome ∨ g.interpret)) then
      none
    else some (.perform {
      source
      config := {
        capacity := g.capacity.getD Tape.defaultCapacity
        depth := g.depth.getD Source.defaultDepth
        policy := g.policy.getD .zero }
      output := g.output
      moduleName := g.moduleName
      interpret := g.interpret
      inspect := g.inspect })

end Given

/-- What one argument asks for. -/
inductive Effect where
  | continue (g : Given)
  /-- The next argument is the value of an option. -/
  | awaitValue (o : ValueOption) (g : Given)
  | answer (r : Request)
  | refuse

def Effect.ofGiven? : Option Given → Effect
  | some g => .continue g
  | none => .refuse

def setFlag (g : Given) : Flag → Effect
  | .interpret => if g.interpret then .refuse else .continue { g with interpret := true }
  | .inspect => if g.inspect then .refuse else .continue { g with inspect := true }
  | .version => .answer .version
  | .help => .answer .help

/-- The part of an argument behind its two dashes. -/
def readLong (g : Given) (text : List Char) : Effect :=
  let name := String.ofList (text.takeWhile (· ≠ '='))
  let value? := match text.dropWhile (· ≠ '=') with
    | [] => none
    | _ :: value => some (String.ofList value)
  match ofLong? name, value? with
  | some (.value o), some value => .ofGiven? (g.setValue? o value)
  | some (.value o), none => .awaitValue o g
  | some (.flag f), none => setFlag g f
  | _, _ => .refuse

/-- The part of an argument behind its one dash. -/
def readShort (g : Given) : List Char → Effect
  | [] => .continue g
  | c :: rest =>
    match ofShort? c with
    | some (.flag f) =>
      match setFlag g f with
      | .continue g => readShort g rest
      | effect => effect
    | some (.value o) =>
      match rest with
      | [] => .awaitValue o g
      | '=' :: value => .ofGiven? (g.setValue? o (String.ofList value))
      | value => .ofGiven? (g.setValue? o (String.ofList value))
    | none => .refuse

def readArgument (g : Given) (argument : String) : Effect :=
  match argument.toList with
  | '-' :: '-' :: text => readLong g text
  | '-' :: c :: text => readShort g (c :: text)
  | _ => .ofGiven? (g.setSource? argument)

/-- Whether an argument can be the value of an option. Only the end-of-input policy may begin with a
dash. -/
def canBeValue (o : ValueOption) (argument : String) : Bool :=
  match o, argument.toList with
  | .endOfInput, _ => true
  | _, '-' :: _ :: _ => false
  | _, _ => true

/-- Reads arguments from left to right; `none` if they cannot be understood. -/
def parse? : Given → List String → Option Request
  | g, [] => g.finish?
  | g, "--" :: rest =>
    match rest with
    | [] => g.finish?
    | [source] => (g.setSource? source).bind Given.finish?
    | _ => none
  | g, argument :: rest =>
    match readArgument g argument with
    | .continue g => parse? g rest
    | .answer r => some r
    | .refuse => none
    | .awaitValue o g =>
      match rest with
      | [] => none
      | value :: rest =>
        if canBeValue o value then
          match g.setValue? o value with
          | some g => parse? g rest
          | none => none
        else none

end TapeLang.Command
