/-!
# Module names

A name is non-empty text of at most 255 bytes without control characters and path separators.
-/

namespace TapeLang.Module

inductive NameDefect where
  | empty
  | tooLong
  | controlCharacter
  | pathSeparator
  deriving DecidableEq, Repr

namespace NameDefect

def reason : NameDefect → String
  | .empty => "is empty"
  | .tooLong => "is longer than 255 bytes"
  | .controlCharacter => "contains a control character"
  | .pathSeparator => "contains a path separator"

end NameDefect

def longestName : Nat := 255

def isControl (c : Char) : Bool :=
  c.toNat < 0x20 || (0x7F ≤ c.toNat && c.toNat < 0xA0)

/-- The first thing wrong with a name. -/
def nameDefect? (name : String) : Option NameDefect :=
  if name.isEmpty then some .empty
  else if longestName < name.utf8ByteSize then some .tooLong
  else if name.toList.any isControl then some .controlCharacter
  else if name.toList.any (fun c => c = '/' ∨ c = '\\') then some .pathSeparator
  else none

end TapeLang.Module
