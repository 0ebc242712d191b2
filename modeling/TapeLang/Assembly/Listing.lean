import TapeLang.Assembly.Assemble

/-!
# Assembly listings

A listing names its labels. A line either introduces a name, which stands for a new label from there
on, or is an item over names already known.
-/

namespace TapeLang.Assembly

inductive Line where
  | label (name : String)
  | item (i : Item String)
  deriving DecidableEq, Repr

/-- The labels of known names, the newest first. -/
abbrev Scope := List (String × Label)

namespace Listing

/-- The items of a listing and the next label not in use. The labels it introduces are numbered from
`next` on. -/
def expand : Scope → (next : Label) → List Line → Except Breach (List (Item Label) × Label)
  | _, next, [] => .ok ([], next)
  | scope, next, .label name :: rest => expand ((name, next) :: scope) (next + 1) rest
  | scope, next, .item i :: rest =>
    match i.mapLabel? (scope.lookup ·) with
    | none => .error .unknownName
    | some item =>
      match item.breach? with
      | some b => .error b
      | none =>
        match expand scope next rest with
        | .error b => .error b
        | .ok (items, next) => .ok (item :: items, next)

theorem expand_item_eq_ok {scope : Scope} {next behind : Label} {i : Item String}
    {rest : List Line} {items : List (Item Label)}
    (h : expand scope next (.item i :: rest) = .ok (items, behind)) :
    ∃ item more, i.mapLabel? (scope.lookup ·) = some item ∧ item.breach? = none ∧
      expand scope next rest = .ok (more, behind) ∧ items = item :: more := by
  simp only [expand] at h
  split at h
  next => simp at h
  next item hitem =>
    split at h
    next => simp at h
    next hbreach =>
      split at h
      next => simp at h
      next more behind' hrest =>
        obtain ⟨rfl, rfl⟩ := Prod.mk.inj (Except.ok.inj h)
        exact ⟨item, more, hitem, hbreach, hrest, rfl⟩

def lineSize : Line → Nat
  | .label _ => 0
  | .item i => i.size

/-- The end of the code after each line. -/
def offsets (lines : List Line) : List Nat :=
  (lines.foldl (fun (ends, last) line =>
    let next := last + lineSize line
    (ends.push next, next)) ((#[] : Array Nat), 0)).1.toList

/-- Assembles a listing that stands alone. -/
def assemble (lines : List Line) : Except (Refusal AssembleError) Assembled := do
  let (items, labels) ← Refusal.ofBreach (expand [] 0 lines)
  Refusal.ofError (Assembly.assemble labels items)

end Listing

end TapeLang.Assembly
