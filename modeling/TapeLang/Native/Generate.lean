import TapeLang.Native.Environment
import TapeLang.Program
import TapeLang.EndOfInput
import TapeLang.Channel.Failure

/-!
# Code generation

One fragment for each instruction, in order. Every index from zero to the program's size has a label,
so a loop end branches to any of them; a refused move branches to a stub behind the program.
-/

namespace TapeLang.Native

open X86 Assembly

inductive CodegenError where
  /-- A loop target behind the end of the program. -/
  | invalidTarget (index target : Nat)
  | unboundLabel (l : Label)
  | branchOutOfRange (offset : Nat)
  | unsupportedHost
  | mapping (f : Failure)
  deriving DecidableEq, Repr

namespace CodegenError

def ofAssemble : AssembleError → CodegenError
  | .unboundLabel l => .unboundLabel l
  | .branchOutOfRange offset => .branchOutOfRange offset

def message : CodegenError → String
  | .invalidTarget index target =>
    "loop target " ++ toString target ++ " out of range at instruction " ++ toString index
  | .unboundLabel l => "branch to unbound label " ++ toString l
  | .branchOutOfRange offset => "branch at offset " ++ toString offset ++ " out of rel32 range"
  | .unsupportedHost => "native code execution is not supported on this host"
  | .mapping f => "cannot map executable memory: " ++ f.text

end CodegenError

structure MachineCode where
  bytes : Bytes
  /-- The offset execution starts at. -/
  entry : Nat
  /-- Offsets of the tape addresses left open, eight bytes each. -/
  relocations : List Nat
  /-- The offset of every instruction, and of the end. -/
  addresses : List Nat
  deriving DecidableEq, Repr

/-- Overwrites part of a byte string, which keeps its length. -/
def overwrite (bytes : Bytes) (offset : Nat) (new : Bytes) : Except Breach Bytes :=
  if offset + new.length ≤ bytes.length then
    .ok (bytes.take offset ++ new ++ bytes.drop (offset + new.length))
  else .error .outOfRange

/-- Fills in the address of the tape. -/
def MachineCode.patch (code : MachineCode) (address : UInt64) : Except Breach MachineCode := do
  let bytes ← code.relocations.foldlM
    (fun bytes offset => overwrite bytes offset (Bytes.ofUInt64 address)) code.bytes
  return { code with bytes }

/-- What the fragments of one program share. The labels of the indices from zero to `size` follow
each other from `first` on, then come the exits. -/
structure Frame where
  environment : Environment
  policy : EndOfInput
  first : Label
  size : Nat

namespace Frame

def address (f : Frame) (index : Nat) : Label := f.first + index

def ok (f : Frame) : Label := f.first + f.size + 1

def bounds (f : Frame) : Label := f.first + f.size + 2

def io (f : Frame) : Label := f.first + f.size + 3

/-- The first label behind those of the frame. -/
def free (f : Frame) : Label := f.first + f.size + 4

end Frame

/-- Moves the pointer, or branches to `fault` and leaves it. -/
def moveItems (delta : Int8) (fault : Label) : List (Item Label) :=
  let distance := Int32.ofInt delta.toInt.natAbs
  if 0 < delta.toInt then
    [.plain (.lea .rax { base := pointerReg, disp := distance }),
      .plain (.cmp .rax capacityReg),
      .branch .aboveOrEqual fault,
      .plain (.mov pointerReg .rax)]
  else if delta.toInt < 0 then
    [.plain (.aluImm .cmp pointerReg distance),
      .branch .below fault,
      .plain (.aluImm .sub pointerReg distance)]
  else []

def addItems (delta : Int8) : List (Item Label) :=
  if delta = 0 then [] else [.plain (.aluByteImm .add cell delta.toUInt8)]

/-- Stores what `read` leaves in `rax`, or what the policy asks for at the end of the input. -/
def inputItems (policy : EndOfInput) (read : List (Item Label)) (eof store done : Label) :
    List (Item Label) :=
  let atEnd : Item Label := match policy.value? with
    | none => .jump done
    | some b => if b = 0 then .plain (.xor32 .rax .rax) else .plain (.movImm32 .rax b.toUInt32)
  read ++ [.jump store, .bind eof, atEnd, .bind store, .plain (.storeByte cell .rax), .bind done]

/-- Branches to `target` if the current cell satisfies the condition against zero. -/
def loopItems (c : Cond) (target : Label) : List (Item Label) :=
  [.plain (.aluByteImm .cmp cell 0), .branch c target]

def loopFragment (f : Frame) (s : Site) (c : Cond) (target : Nat) :
    Except (Refusal CodegenError) (List (Item Label) × Label) :=
  if target ≤ f.size then .ok (loopItems c (f.address target), s.next)
  else .error (.error (.invalidTarget s.index target))

/-- The items of one instruction and the next label not in use. A move takes the first new label for its
stub, an input the first three. -/
def fragment (f : Frame) (s : Site) (instr : Instruction) :
    Except (Refusal CodegenError) (List (Item Label) × Label) :=
  match instr with
  | .move delta => .ok (moveItems delta s.next, s.next + 1)
  | .add delta => .ok (addItems delta, s.next)
  | .input => do
    let inner : Site := { s with next := s.next + 3 }
    let (read, free) ← Refusal.ofBreach
      (Listing.expand [("eof", s.next), ("io_error", f.io)] inner.next
        (f.environment.readByte inner))
    return (inputItems f.policy read s.next (s.next + 1) (s.next + 2), free)
  | .output =>
    Refusal.ofBreach (Listing.expand [("io_error", f.io)] s.next (f.environment.writeByte s))
  | .loopOpen target => loopFragment f s .equal target
  | .loopClose target => loopFragment f s .notEqual target

/-- The items so far and their size, the next label not in use, and the stubs still to come: label and
index. -/
structure Draft where
  items : Array (Item Label)
  offset : Nat
  next : Label
  stubs : Array (Label × Nat) := #[]

namespace Draft

/-- Where a draft goes on, for the instruction at an index. -/
def site (d : Draft) (index : Nat) : Site :=
  ⟨index, d.offset, d.next⟩

def append (items : List (Item Label)) (next : Label) : Draft → Draft
  | ⟨done, offset, _, stubs⟩ => ⟨done ++ items, offset + sizes items, next, stubs⟩

/-- A move needs a stub, under the next label. -/
def requestStub (instr : Instruction) (index : Nat) : Draft → Draft
  | ⟨done, offset, next, stubs⟩ =>
    let stubs := match instr with
      | .move _ => stubs.push (next, index)
      | _ => stubs
    ⟨done, offset, next, stubs⟩

def addInstruction (f : Frame) (d : Draft) (instr : Instruction) (index : Nat) :
    Except (Refusal CodegenError) Draft := do
  let (items, next) ← fragment f (d.site index) instr
  return (d.requestStub instr index).append (.bind (f.address index) :: items) next

/-- The end of the program leaves by the exit for success. -/
def addEnd (f : Frame) (d : Draft) : Draft :=
  let next := d.next
  d.append [.bind (f.address f.size), .jump f.ok] next

/-- A stub notes the index of its move and leaves by the exit for refused moves. -/
def addStub (f : Frame) (d : Draft) (stub : Label × Nat) :
    Except (Refusal CodegenError) Draft := do
  let (record, next) ← Refusal.ofBreach
    (Listing.expand [] d.next (f.environment.recordFault (d.site stub.2)))
  return d.append (.bind stub.1 :: (record ++ [.jump f.bounds])) next

def addEpilogue (f : Frame) (d : Draft) : Except (Refusal CodegenError) Draft := do
  let (items, next) ← Refusal.ofBreach
    (Listing.expand [("ok", f.ok), ("bounds", f.bounds), ("io", f.io)] d.next
      (f.environment.epilogue (d.site f.size)))
  return d.append items next

end Draft

/-- The items of a whole program, its frame and the number of labels. -/
def draft (p : Program) (env : Environment) (policy : EndOfInput) :
    Except (Refusal CodegenError) (Frame × Draft) := do
  let (prologue, first) ← Refusal.ofBreach (Listing.expand [] 0 env.prologue)
  let f : Frame := ⟨env, policy, first, p.size⟩
  let d ← p.instructions.toList.zipIdx.foldlM
    (fun (d : Draft) (instr, index) => d.addInstruction f instr index)
    { items := prologue.toArray, offset := sizes prologue, next := f.free }
  let d ← d.stubs.toList.foldlM (Draft.addStub f) (d.addEnd f)
  let d ← d.addEpilogue f
  return (f, d)

def generate (p : Program) (env : Environment) (policy : EndOfInput) :
    Except (Refusal CodegenError) MachineCode := do
  let (f, d) ← draft p env policy
  match Assembly.assemble d.next d.items.toList with
  | .error e => .error (.error (.ofAssemble e))
  | .ok assembled =>
    return {
      bytes := assembled.code
      entry := 0
      relocations := assembled.relocations
      addresses := (assembled.labels.drop f.first).take (p.size + 1) }

end TapeLang.Native
