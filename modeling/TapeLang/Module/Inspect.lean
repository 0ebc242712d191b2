import TapeLang.Module.Image

/-!
# Reading modules back

Everything in a file may be wrong. Offsets are 64-bit words: where a sum of two of them is checked, one
that does not fit makes the file malformed; where it is not checked it would break a precondition.
-/

namespace TapeLang.Module

/-- What makes a file no module. -/
inductive Defect where
  | notElf
  | wrongMachine
  | headerSize
  | truncated
  | noNotes
  | noTape
  | notesOutside
  | truncatedNote
  | nameNotText
  | digestLength
  | noName
  | noDigest
  | digestMismatch
  deriving DecidableEq, Repr

def Defect.reason : Defect → String
  | .notElf => "not an ELF file"
  | .wrongMachine => "not a little-endian x86-64 ELF64 file"
  | .headerSize => "unexpected program header size"
  | .truncated => "truncated"
  | .noNotes => "no note segment"
  | .noTape => "no tape segment"
  | .notesOutside => "note segment outside the file"
  | .truncatedNote => "truncated note"
  | .nameNotText => "module name is not UTF-8"
  | .digestLength => "digest has the wrong length"
  | .noName => "no module name note"
  | .noDigest => "no code digest note"
  | .digestMismatch => "code does not match its digest"

structure ModuleInfo where
  name : String
  digest : Bytes
  /-- The address execution starts at. -/
  entry : Nat
  tapeCapacity : Nat
  deriving DecidableEq, Repr

abbrev Reading := Except (Refusal Defect)

def malformed {α : Type} (d : Defect) : Reading α :=
  .error (.error d)

def orMalformed {α : Type} (d : Defect) : Option α → Reading α
  | some a => .ok a
  | none => malformed d

/-- The bytes from `start` up to `stop`, if they are all there. -/
def slice? (file : Array UInt8) (start stop : Nat) : Option Bytes :=
  if start ≤ stop ∧ stop ≤ file.size then some (file.extract start stop).toList else none

/-- The bytes from `start` up to `stop`, which have to be there. -/
def slice (file : Array UInt8) (start stop : Nat) : Except Breach Bytes :=
  match slice? file start stop with
  | some bytes => .ok bytes
  | none => .error .outOfRange

/-- The byte at an index, which has to be there. -/
def byteAt (file : Array UInt8) (i : Nat) : Except Breach UInt8 :=
  match file[i]? with
  | some b => .ok b
  | none => .error .outOfRange

/-- A checked sum of offsets. -/
def offset (base extra : Nat) : Reading Nat :=
  if base + extra < wordLimit then .ok (base + extra) else malformed .truncated

/-- A number of `count` bytes. -/
def readNat (file : Array UInt8) (start count : Nat) : Reading Nat := do
  let stop ← offset start count
  let bytes ← orMalformed .truncated (slice? file start stop)
  return Bytes.toNat bytes

/-- What the program headers say: where the notes are, and how large the tape is. Later headers win. -/
structure Located where
  notes : Option (Nat × Nat) := none
  capacity : Option Nat := none
  deriving DecidableEq, Repr

def locate (file : Array UInt8) (table : Nat) (found : Located) (i : Nat) : Reading Located := do
  let header ← offset table (← Refusal.ofBreach (productWords i programHeaderSize))
  let kind ← readNat file header 4
  let flags ← readNat file (← offset header 4) 4
  if kind = kindNote then
    let start ← readNat file (← offset header 8) 8
    let size ← readNat file (← offset header 32) 8
    return { found with notes := some (start, size) }
  else if kind = kindLoad ∧ flags / flagWrite % 2 = 1 then
    let capacity ← readNat file (← offset header 40) 8
    return { found with capacity := some capacity }
  else return found

/-- What the notes say. Later notes win. -/
structure Described where
  name : Option String := none
  digest : Option Bytes := none
  deriving DecidableEq, Repr

/-- Takes in one note; only a module's own notes of the two kinds count. -/
def Described.note (d : Described) (n : Note) : Reading Described :=
  if n.owner ≠ Note.moduleOwner then .ok d
  else if n.kind = Note.kindName then
    match String.fromUTF8? ⟨n.payload.toArray⟩ with
    | some name => .ok { d with name := some name }
    | none => malformed .nameNotText
  else if n.kind = Note.kindDigest then
    if n.payload.length = 32 then .ok { d with digest := some n.payload }
    else malformed .digestLength
  else .ok d

/-- The note at an offset, and the offset behind it. Its three words are known to be in the file. -/
def readNote (file : Array UInt8) (start : Nat) : Reading (Note × Nat) := do
  let ownerSize ← readNat file start 4
  let payloadSize ← readNat file (← Refusal.ofBreach (sumWords start 4)) 4
  let kind ← readNat file (← Refusal.ofBreach (sumWords start 8)) 4
  let ownerAt ← Refusal.ofBreach (sumWords start 12)
  let payloadAt ← offset ownerAt (← Refusal.ofBreach (alignWord ownerSize 4))
  let payload ← orMalformed .truncatedNote
    (slice? file payloadAt (← offset payloadAt payloadSize))
  let ownerStop ← Refusal.ofBreach (sumWords ownerAt ownerSize)
  let owner ← orMalformed .truncatedNote (slice? file ownerAt ownerStop)
  let next ← offset payloadAt (← Refusal.ofBreach (alignWord payloadSize 4))
  return (⟨owner, kind, payload⟩, next)

/-- Visits notes as long as the three words of one fit before `stop`. Each note takes at least twelve
bytes, so the file's size bounds their number. -/
def walkNotes {σ : Type} (visit : σ → Note → Reading σ) (file : Array UInt8) (stop : Nat) :
    (bound : Nat) → Nat → σ → Reading σ
  | 0, _, _ => .error (.breach .outOfRange)
  | bound + 1, start, s => do
    let words ← offset start 12
    if words ≤ stop then
      let (note, next) ← readNote file start
      let s ← visit s note
      walkNotes visit file stop bound next s
    else return s

/-- What the notes say, one after the other. -/
def readNotes (file : Array UInt8) (stop bound start : Nat) (d : Described) : Reading Described :=
  walkNotes Described.note file stop bound start d

/-- The code: everything from the aligned end of the notes on. -/
def codeAfter (file : Array UInt8) (notesEnd : Nat) : Except Breach Bytes := do
  let start ← alignWord notesEnd codeAlignment
  slice file (min start file.size) file.size

def readModule (hash : Hash) (file : Array UInt8) : Reading ModuleInfo := do
  if file.size < fileHeaderSize then malformed .notElf
  if (← Refusal.ofBreach (slice file 0 4)) ≠ [0x7F, 0x45, 0x4C, 0x46] then malformed .notElf
  if (← Refusal.ofBreach (byteAt file 4)) ≠ 2 then malformed .wrongMachine
  if (← Refusal.ofBreach (byteAt file 5)) ≠ 1 then malformed .wrongMachine
  if (← readNat file 18 2) ≠ machineX86 then malformed .wrongMachine
  let entry ← readNat file 24 8
  let table ← readNat file 32 8
  if (← readNat file 54 2) ≠ programHeaderSize then malformed .headerSize
  let count ← readNat file 56 2
  let found ← (List.range count).foldlM (locate file table) {}
  let (notesAt, notesSize) ← orMalformed .noNotes found.notes
  let capacity ← orMalformed .noTape found.capacity
  if wordLimit ≤ notesAt + notesSize ∨ file.size < notesAt + notesSize then
    malformed .notesOutside
  let d ← readNotes file (notesAt + notesSize) (file.size + 1) notesAt {}
  let name ← orMalformed .noName d.name
  let digest ← orMalformed .noDigest d.digest
  let code ← Refusal.ofBreach (codeAfter file (notesAt + notesSize))
  if hash.digest code ≠ digest then malformed .digestMismatch
  return ⟨name, digest, entry, capacity⟩

/-- What a module file says about itself. -/
def inspect (hash : Hash) (bytes : Bytes) : Reading ModuleInfo :=
  readModule hash bytes.toArray

end TapeLang.Module
