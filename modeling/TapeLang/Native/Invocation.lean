import TapeLang.X86.Machine
import TapeLang.Native.Generate
import TapeLang.Native.HostCalls
import TapeLang.Interpreter

/-!
# Running compiled programs

A compiled program is called as a function on a tape. The machine executes its code; when control
reaches the address of a callback, the host carries the callback out and returns. What it leaves in
registers and memory is up to the host.
-/

namespace TapeLang.Native

open X86

/-- Where everything lies while compiled code runs. -/
structure Placement where
  code : UInt64 := 0x7F0000000000
  tape : UInt64 := 0x7E0000000000
  context : UInt64 := 0x7FFC00000000
  stack : UInt64 := 0x7FFD00000000
  stackSize : Nat := 4096
  /-- The address handed to the callbacks. -/
  host : UInt64 := 0x7FFC00001000
  readEntry : UInt64 := 0x560000000000
  writeEntry : UInt64 := 0x560000001000
  /-- The caller's return address. -/
  caller : UInt64 := 0x560000002000
  deriving DecidableEq, Repr

/-- The context at the start of a call: the host, the callbacks, the pointer and a zero. -/
def Placement.contextBytes (place : Placement) (pointer : Nat) : Bytes :=
  Bytes.ofUInt64 place.host ++ Bytes.ofUInt64 place.readEntry ++ Bytes.ofUInt64 place.writeEntry ++
    Bytes.ofNat 8 pointer ++ Bytes.ofNat 8 0

/-- The machine at the first instruction of the code, called with the tape and the context. -/
def Placement.enter (place : Placement) (code : MachineCode) (tape : Tape) : Machine :=
  let room := place.stackSize - 8
  let stack := (List.replicate room 0 ++ Bytes.ofUInt64 place.caller).toArray
  { regs := {
      rdi := place.tape
      rsi := UInt64.ofNat tape.cells.size
      rdx := place.context
      rsp := place.stack + UInt64.ofNat room }
    flags := {}
    rip := place.code + UInt64.ofNat code.entry
    memory := {
      code := .place place.code code.bytes.toArray
      tape := ⟨place.tape, tape.cells⟩
      context := ⟨place.context, (place.contextBytes tape.pointer).toArray⟩
      stack := ⟨place.stack, stack⟩ } }

/-- What calls the code and carries its callbacks out. -/
structure Host where
  place : Placement
  /-- The machine at the first instruction of the code, called on a tape. -/
  enter : MachineCode → Tape → Machine
  /-- The machine behind a callback that replied with a number, after so many others. -/
  leave : Nat → Int32 → Machine → Machine

/-- What a callback leaves in the registers it need not preserve. -/
structure Residue where
  upperRax : UInt32 := 0
  rcx : UInt64 := 0
  rdx : UInt64 := 0
  rsi : UInt64 := 0
  rdi : UInt64 := 0
  r8 : UInt64 := 0
  r9 : UInt64 := 0
  r10 : UInt64 := 0
  r11 : UInt64 := 0
  flags : Flags := {}
  deriving DecidableEq, Repr

/-- Returns from a callback with a reply. -/
def Residue.leave (r : Residue) (reply : Int32) : Machine → Machine
  | ⟨regs, _, _, memory⟩ =>
    let back := (memory.loadWord? regs.rsp).getD 0
    let regs := { regs with
      rax := (r.upperRax.toUInt64 <<< 32) ||| reply.toUInt32.toUInt64
      rcx := r.rcx, rdx := r.rdx, rsi := r.rsi, rdi := r.rdi
      r8 := r.r8, r9 := r.r9, r10 := r.r10, r11 := r.r11
      rsp := regs.rsp + 8 }
    ⟨regs, r.flags, back, memory⟩

/-- A host that writes no memory, and clears what it need not set when it enters the code. -/
def Host.plain (place : Placement) (residue : Nat → Residue) : Host :=
  ⟨place, place.enter, fun n => (residue n).leave⟩

/-- A call in progress. -/
structure Invocation where
  machine : Machine
  input : Input
  output : Output
  /-- The failure the last callback met. -/
  failure : Option Failure := none
  /-- Callbacks made so far. -/
  callbacks : Nat := 0

inductive InvocationStep where
  | next (s : Invocation)
  /-- The code returned a status. -/
  | returned (status : UInt32) (s : Invocation)
  /-- The machine could not go on, and nothing is left of the call. -/
  | crashed

namespace Invocation

/-- Returns from a callback. -/
def resume (host : Host) (reply : Int32) (s : Invocation) : InvocationStep :=
  match s with
  | ⟨machine, input, output, failure, callbacks⟩ =>
    match machine.memory.loadWord? machine.regs.rsp with
    | none => .crashed
    | some _ => .next ⟨host.leave callbacks reply machine, input, output, failure, callbacks + 1⟩

/-- The read callback: the byte read, a number beyond bytes at the end of the input, or a negative
number for a failure. -/
def readCallback (host : Host) (s : Invocation) : InvocationStep :=
  match s with
  | ⟨machine, input, output, failure, callbacks⟩ =>
    match input.readByte with
    | (.ok (some b), input) =>
      resume host b.toUInt32.toInt32 ⟨machine, input, output, failure, callbacks⟩
    | (.ok none, input) =>
      resume host HostCalls.endOfInput ⟨machine, input, output, failure, callbacks⟩
    | (.error f, input) => resume host (-1) ⟨machine, input, output, some f, callbacks⟩

/-- The write callback: zero, or one for a failure. -/
def writeCallback (host : Host) (s : Invocation) : InvocationStep :=
  match s with
  | ⟨machine, input, output, failure, callbacks⟩ =>
    match output.writeByte machine.regs.rsi.toUInt8 with
    | (.ok (), output) => resume host 0 ⟨machine, input, output, failure, callbacks⟩
    | (.error f, output) => resume host 1 ⟨machine, input, output, some f, callbacks⟩

def step (host : Host) (s : Invocation) : InvocationStep :=
  let rip := s.machine.rip
  if rip = host.place.caller then .returned s.machine.regs.rax.toUInt32 s
  else if rip = host.place.readEntry then
    if s.machine.regs.rdi = host.place.host then readCallback host s else .crashed
  else if rip = host.place.writeEntry then
    if s.machine.regs.rdi = host.place.host then writeCallback host s else .crashed
  else
    match s with
    | ⟨machine, input, output, failure, callbacks⟩ =>
      match machine.step with
      | .next machine => .next ⟨machine, input, output, failure, callbacks⟩
      | .syscall _ => .crashed
      | .fault => .crashed

/-- Runs for at most `fuel` steps, up to one that returns or crashes. -/
def run (host : Host) : (fuel : Nat) → Invocation → Option InvocationStep
  | 0, _ => none
  | fuel + 1, s =>
    match step host s with
    | .next s => run host fuel s
    | last => some last

end Invocation

structure CompiledProgram where
  code : MachineCode
  policy : EndOfInput
  deriving DecidableEq, Repr

/-- How a call ended: like a run of the interpreter, with what it left of the tape and the channels, or
by a crash. -/
inductive CallEnding where
  | ended (e : Ending) (tape : Tape) (input : Input) (output : Output)
  | crashed
  deriving DecidableEq

namespace CompiledProgram

def compile (p : Program) (policy : EndOfInput) :
    Except (Refusal CodegenError) CompiledProgram := do
  let code ← generate p HostCalls.environment policy
  return ⟨code, policy⟩

def describe (c : CompiledProgram) : String :=
  "CompiledProgram \x7b code_len: " ++ toString c.code.bytes.length ++ ", entry: "
    ++ toString c.code.entry ++ ", eof: " ++ c.policy.tag ++ " \x7d"

/-- What a status means, given what the code left in the context. -/
def ending (status : UInt32) (faultIndex pointer : Nat) (failure : Option Failure) : Ending :=
  match status with
  | 0 => .finished
  | 1 => .faulted (.outOfTape faultIndex pointer)
  | 2 => .faulted (.channel
      (failure.getD ⟨.other, "compiled program reported an i/o error"⟩))
  | n => .faulted (.channel
      ⟨.other, "compiled program returned unknown status " ++ toString n.toNat⟩)

def contextWord (s : Invocation) (offset : Int32) : Nat :=
  let context := s.machine.memory.context
  Bytes.toNat (context.window (context.base + signExtend offset) 8)

/-- Calls the code on a tape. The tape gets the cells and the pointer the code leaves. -/
def invoke (c : CompiledProgram) (host : Host) (fuel : Nat) (tape : Tape) (input : Input)
    (output : Output) : Option CallEnding :=
  let before := tape.pointer
  let start : Invocation := { machine := host.enter c.code tape, input, output }
  match Invocation.run host fuel start with
  | some (.returned status s) =>
    let pointer := contextWord s HostCalls.pointerField
    let faultIndex := contextWord s HostCalls.faultField
    let cells := s.machine.memory.tape.bytes
    let after := if pointer < cells.size then pointer else before
    some (.ended (ending status faultIndex pointer s.failure) ⟨cells, after⟩ s.input s.output)
  | some _ => some .crashed
  | none => none

end CompiledProgram

end TapeLang.Native
