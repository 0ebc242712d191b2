import TapeLang.Module.Digest
import TapeLang.Native.Generate
import TapeLang.Tape

/-!
# Executable images

An image is an ELF64 file for x86-64: the file header, three program headers, two notes with the
module's name and the digest of its code, and the code. The whole file is mapped readable and
executable; the tape is a writable segment without file bytes on the next page behind it.
-/

namespace TapeLang.Module

open Native

/-- The address the file is mapped at. -/
def baseAddress : Nat := 0x400000

def pageSize : Nat := 0x1000

def fileHeaderSize : Nat := 64

def programHeaderSize : Nat := 56

def headersSize : Nat := fileHeaderSize + 3 * programHeaderSize

def codeAlignment : Nat := 16

def machineX86 : Nat := 62

def kindLoad : Nat := 1

def kindNote : Nat := 4

def flagExecute : Nat := 1

def flagWrite : Nat := 2

def flagRead : Nat := 4

/-- Fills up with zeros to a multiple of `align`. -/
def pad (align : Nat) (bytes : Bytes) : Bytes :=
  bytes ++ List.replicate (alignUp bytes.length align - bytes.length) 0

/-- Cuts off behind a length, or fills up with zeros to it. -/
def resize (length : Nat) (bytes : Bytes) : Bytes :=
  bytes.take length ++ List.replicate (length - bytes.length) 0

structure Note where
  owner : Bytes
  kind : Nat
  payload : Bytes
  deriving DecidableEq, Repr

namespace Note

/-- The owner of a module's notes, with its final zero. -/
def moduleOwner : Bytes := [0x42, 0x46, 0x4A, 0x49, 0x54, 0]

def kindName : Nat := 1

def kindDigest : Nat := 2

/-- Appends a note to an image: three words, the owner and the payload. The image is filled up to a
multiple of four bytes behind each of the two. -/
def append (image : Bytes) (n : Note) : Bytes :=
  let image := image ++ Bytes.ofNat 4 n.owner.length ++ Bytes.ofNat 4 n.payload.length ++
    Bytes.ofNat 4 n.kind
  let image := pad 4 (image ++ n.owner)
  pad 4 (image ++ n.payload)

/-- The size of a module's note with a payload of `length` bytes. -/
def sizeFor (length : Nat) : Nat :=
  12 + alignUp moduleOwner.length 4 + alignUp length 4

end Note

structure Segment where
  kind : Nat
  flags : Nat
  offset : Nat
  address : Nat
  fileSize : Nat
  memorySize : Nat
  align : Nat
  deriving DecidableEq, Repr

def Segment.encode (s : Segment) : Bytes :=
  Bytes.ofNat 4 s.kind ++ Bytes.ofNat 4 s.flags ++ Bytes.ofNat 8 s.offset ++
    Bytes.ofNat 8 s.address ++ Bytes.ofNat 8 s.address ++ Bytes.ofNat 8 s.fileSize ++
    Bytes.ofNat 8 s.memorySize ++ Bytes.ofNat 8 s.align

/-- The file header: identification, type, machine, version, entry, offset of the program headers, and
the sizes and numbers of the headers. There are no sections. -/
def fileHeader (entry : Nat) : Bytes :=
  [0x7F, 0x45, 0x4C, 0x46, 2, 1, 1, 0, 0, 0, 0, 0, 0, 0, 0, 0] ++
    Bytes.ofNat 2 2 ++ Bytes.ofNat 2 machineX86 ++ Bytes.ofNat 4 1 ++ Bytes.ofNat 8 entry ++
    Bytes.ofNat 8 fileHeaderSize ++ Bytes.ofNat 8 0 ++ Bytes.ofNat 4 0 ++
    Bytes.ofNat 2 fileHeaderSize ++ Bytes.ofNat 2 programHeaderSize ++ Bytes.ofNat 2 3 ++
    Bytes.ofNat 2 0 ++ Bytes.ofNat 2 0 ++ Bytes.ofNat 2 0

/-- The bytes of a text in UTF-8. -/
def textBytes (text : String) : Bytes :=
  text.toUTF8.data.toList

/-- Offsets, sizes and addresses of an image. -/
structure Geometry where
  notesSize : Nat
  codeOffset : Nat
  fileSize : Nat
  tapeAddress : Nat
  deriving DecidableEq, Repr

def geometry (nameSize codeSize : Nat) : Geometry :=
  let notesSize := Note.sizeFor nameSize + Note.sizeFor 32
  let codeOffset := alignUp (headersSize + notesSize) codeAlignment
  let fileSize := codeOffset + codeSize
  ⟨notesSize, codeOffset, fileSize, alignUp (baseAddress + fileSize) pageSize⟩

def Geometry.segments (g : Geometry) (capacity : Nat) : List Segment :=
  [⟨kindLoad, flagRead + flagExecute, 0, baseAddress, g.fileSize, g.fileSize, pageSize⟩,
    ⟨kindLoad, flagRead + flagWrite, 0, g.tapeAddress, 0, capacity, pageSize⟩,
    ⟨kindNote, flagRead, headersSize, baseAddress + headersSize, g.notesSize, g.notesSize, 4⟩]

/-- A sum of two words, which has to be a word again. -/
def sumWords (a b : Nat) : Except Breach Nat :=
  if a + b < wordLimit then .ok (a + b) else .error .overflow

/-- A product of two words, which has to be a word again. -/
def productWords (a b : Nat) : Except Breach Nat :=
  if a * b < wordLimit then .ok (a * b) else .error .overflow

/-- A word rounded up to a multiple of `align`, which has to be a word again. -/
def alignWord (value align : Nat) : Except Breach Nat :=
  if alignUp value align < wordLimit then .ok (alignUp value align) else .error .overflow

/-- Lays out code as a module with a tape of `capacity` cells. The sizes are known before anything is
written, and the digest is that of the code with the tape's address filled in. -/
def link (hash : Hash) (code : MachineCode) (name : String) (capacity : Nat) :
    Except Breach Bytes := do
  let nameBytes := textBytes name
  let g := geometry nameBytes.length code.bytes.length
  let code ← code.patch (UInt64.ofNat g.tapeAddress)
  let entry ← sumWords baseAddress (← sumWords g.codeOffset code.entry)
  let notes := [Note.mk Note.moduleOwner Note.kindName nameBytes,
    Note.mk Note.moduleOwner Note.kindDigest (hash.digest code.bytes)]
  let headers := fileHeader entry ++ (g.segments capacity).flatMap Segment.encode
  return resize g.codeOffset (notes.foldl Note.append headers) ++ code.bytes

end TapeLang.Module
