/-!
# What reading stores at the end of the input
-/

namespace TapeLang

inductive EndOfInput where
  | zero
  | unchanged
  | minusOne
  deriving DecidableEq, Repr, Inhabited

namespace EndOfInput

/-- The byte to store, or `none` to leave the cell alone. -/
def value? : EndOfInput → Option UInt8
  | .zero => some 0
  | .unchanged => none
  | .minusOne => some 255

def name : EndOfInput → String
  | .zero => "zero"
  | .unchanged => "unchanged"
  | .minusOne => "minus-one"

/-- The name used when a compiled program describes itself. -/
def tag : EndOfInput → String
  | .zero => "Zero"
  | .unchanged => "Unchanged"
  | .minusOne => "MinusOne"

def unknownMessage (text : String) : String :=
  "unknown EOF policy '" ++ text ++ "' (expected zero, unchanged or minus-one)"

def ofName? : String → Option EndOfInput
  | "zero" | "0" => some .zero
  | "unchanged" => some .unchanged
  | "minus-one" | "-1" => some .minusOne
  | _ => none

theorem ofName?_name (p : EndOfInput) : ofName? p.name = some p := by
  cases p <;> rfl

end EndOfInput

end TapeLang
