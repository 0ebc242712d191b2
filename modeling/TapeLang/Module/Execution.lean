import TapeLang.Module.Inspect
import TapeLang.X86.Machine
import TapeLang.Channel.Input
import TapeLang.Channel.Output

/-!
# Running modules

A module is a process: its load segments are mapped where the file says, the machine starts at the
entry, and system calls read, write and exit. What else a process starts with is up to the kernel.
-/

namespace TapeLang.Module

open X86

/-- What the kernel starts a process with, apart from its segments. -/
structure Start where
  /-- The registers, the stack pointer among them. -/
  regs : Registers
  flags : Flags
  stack : Region
  /-- Whether a segment of a size is mapped. -/
  maps : Nat → Bool

/-- A program header at an offset of the file. -/
def readSegment (file : Array UInt8) (header : Nat) : Reading Segment := do
  return ⟨← readNat file header 4, ← readNat file (header + 4) 4, ← readNat file (header + 8) 8,
    ← readNat file (header + 16) 8, ← readNat file (header + 32) 8, ← readNat file (header + 40) 8,
    ← readNat file (header + 48) 8⟩

def readSegments (file : Array UInt8) : Reading (List Segment) := do
  let table ← readNat file 32 8
  let count ← readNat file 56 2
  (List.range count).mapM fun i => readSegment file (table + i * programHeaderSize)

/-- The memory of a load segment, if it is mapped: its file bytes, then zeros. -/
def Segment.map? (maps : Nat → Bool) (file : Array UInt8) (s : Segment) : Option (Array UInt8) :=
  if maps s.memorySize ∧ s.offset + s.fileSize ≤ file.size then
    some (file.extract s.offset (s.offset + s.fileSize) ++
      Array.replicate (s.memorySize - s.fileSize) 0)
  else none

def Segment.has (s : Segment) (flag : Nat) : Bool :=
  s.kind = kindLoad && s.flags / flag % 2 = 1

/-- The machine at the entry of a module: one segment executable, one writable. -/
def load (image : Bytes) (start : Start) : Option Machine := do
  let file := image.toArray
  let segments ← (readSegments file).toOption
  let entry ← (readNat file 24 8).toOption
  let text ← segments.find? (·.has flagExecute)
  let data ← segments.find? (·.has flagWrite)
  let code ← text.map? start.maps file
  let cells ← data.map? start.maps file
  return {
    regs := start.regs
    flags := start.flags
    rip := UInt64.ofNat entry
    memory := {
      code := .place (UInt64.ofNat text.address) code
      tape := ⟨UInt64.ofNat data.address, cells⟩
      context := ⟨0, #[]⟩
      stack := start.stack } }

/-- A process in progress, with its standard channels. -/
structure Execution where
  machine : Machine
  input : Input
  output : Output
  /-- System calls made so far. -/
  calls : Nat := 0

inductive ExecutionStep where
  | next (e : Execution)
  | exited (status : Nat) (input : Input) (output : Output)
  /-- The process was killed. -/
  | killed (input : Input) (output : Output)

/-- What the kernel returns for a failed call. -/
def failureResult (f : Failure) : UInt64 :=
  0 - UInt64.ofNat f.kind.errno

/-- The values a system call leaves in `rcx` and `r11`. -/
abbrev Scratch := Nat → UInt64 × UInt64

namespace Execution

/-- Returns from a system call. -/
def resume (scratch : Scratch) (result : UInt64) : Execution → ExecutionStep
  | ⟨⟨regs, flags, rip, memory⟩, input, output, calls⟩ =>
    let (rcx, r11) := scratch calls
    .next ⟨⟨{ regs with rax := result, rcx, r11 }, flags, rip, memory⟩, input, output, calls + 1⟩

/-- Reads one byte from the standard input into memory. -/
def readCall (scratch : Scratch) : Execution → ExecutionStep
  | ⟨machine, input, output, calls⟩ =>
    match input.call with
    | (.byte b, input) =>
      match machine.storeByte? machine.regs.rsi b with
      | some machine => resume scratch 1 ⟨machine, input, output, calls⟩
      | none => .killed input output
    | (.ended, input) => resume scratch 0 ⟨machine, input, output, calls⟩
    | (.failed f, input) => resume scratch (failureResult f) ⟨machine, input, output, calls⟩

/-- Writes one byte of memory to the standard output. -/
def writeCall (scratch : Scratch) : Execution → ExecutionStep
  | ⟨machine, input, output, calls⟩ =>
    match machine.memory.load? machine.regs.rsi with
    | none => .killed input output
    | some b =>
      match output.call b with
      | (.taken, output) => resume scratch 1 ⟨machine, input, output, calls⟩
      | (.refused, output) => resume scratch 0 ⟨machine, input, output, calls⟩
      | (.failed f, output) => resume scratch (failureResult f) ⟨machine, input, output, calls⟩

/-- The system calls of modules: a byte read from descriptor zero, a byte written to descriptor one, and
exit. -/
def systemCall (scratch : Scratch) (e : Execution) : ExecutionStep :=
  let regs := e.machine.regs
  if regs.rax = 60 then .exited (regs.rdi.toNat % 256) e.input e.output
  else if regs.rax = 0 ∧ regs.rdi = 0 ∧ regs.rdx = 1 then readCall scratch e
  else if regs.rax = 1 ∧ regs.rdi = 1 ∧ regs.rdx = 1 then writeCall scratch e
  else .killed e.input e.output

def step (scratch : Scratch) : Execution → ExecutionStep
  | ⟨machine, input, output, calls⟩ =>
    match machine.step with
    | .next machine => .next ⟨machine, input, output, calls⟩
    | .syscall machine => systemCall scratch ⟨machine, input, output, calls⟩
    | .fault => .killed input output

/-- Runs for at most `fuel` steps, up to the end of the process. -/
def run (scratch : Scratch) : (fuel : Nat) → Execution → Option ExecutionStep
  | 0, _ => none
  | fuel + 1, e =>
    match step scratch e with
    | .next e => run scratch fuel e
    | last => some last

end Execution

/-- The end of a process: its exit status, or `none` if it was killed, and its channels. -/
structure ProcessEnd where
  status : Option Nat
  input : Input
  output : Output
  deriving DecidableEq

/-- Runs a module; `none` if it has not ended within the fuel. -/
def execute (fuel : Nat) (start : Start) (scratch : Scratch) (image : Bytes) (input : Input)
    (output : Output) : Option ProcessEnd :=
  match load image start with
  | none => some ⟨none, input, output⟩
  | some machine =>
    match Execution.run scratch fuel { machine, input, output } with
    | some (.exited status input output) => some ⟨some status, input, output⟩
    | some (.killed input output) => some ⟨none, input, output⟩
    | _ => none

end TapeLang.Module
