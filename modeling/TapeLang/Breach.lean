/-!
# Broken preconditions

Operations whose precondition fails have no result. They answer with the precondition that was
broken, so that its absence can be stated and proved.
-/

namespace TapeLang

namespace Except

variable {ε α β : Type}

theorem bind_eq_ok {x : Except ε α} {f : α → Except ε β} {b : β} :
    (x >>= f) = .ok b ↔ ∃ a, x = .ok a ∧ f a = .ok b := by
  cases x <;> simp [bind, Except.bind]

theorem map_eq_ok {x : Except ε α} {f : α → β} {b : β} :
    x.map f = .ok b ↔ ∃ a, x = .ok a ∧ f a = b := by
  cases x <;> simp [Except.map]

theorem map_eq_error {x : Except ε α} {f : α → β} {e : ε} : x.map f = .error e ↔ x = .error e := by
  cases x <;> simp [Except.map]

theorem bind_eq_error {x : Except ε α} {f : α → Except ε β} {e : ε} :
    (x >>= f) = .error e ↔ x = .error e ∨ ∃ a, x = .ok a ∧ f a = .error e := by
  cases x <;> simp [bind, Except.bind]

/-- A list is mapped up to the first failure. -/
theorem mapM_eq_error {f : α → Except ε β} {xs : List α} {e : ε} :
    xs.mapM f = .error e ↔ ∃ (i : Nat) (x : α), xs[i]? = some x ∧ f x = .error e ∧
      ∀ j < i, ∀ y, xs[j]? = some y → ∃ b, f y = .ok b := by
  induction xs with
  | nil => simp [pure, Except.pure]
  | cons x xs ih =>
    rw [List.mapM_cons, bind_eq_error]
    constructor
    · rintro (hx | ⟨b, hb, hrest⟩)
      · exact ⟨0, x, rfl, hx, fun j hj => absurd hj (Nat.not_lt_zero j)⟩
      · rcases bind_eq_error.mp hrest with hrest | ⟨bs, -, hpure⟩
        · obtain ⟨i, y, hy, hfail, hbefore⟩ := ih.mp hrest
          refine ⟨i + 1, y, hy, hfail, fun j hj z hz => ?_⟩
          cases j with
          | zero =>
            obtain rfl := Option.some.inj hz
            exact ⟨b, hb⟩
          | succ j => exact hbefore j (Nat.lt_of_succ_lt_succ hj) z hz
        · cases hpure
    · rintro ⟨i, y, hy, hfail, hbefore⟩
      cases i with
      | zero =>
        obtain rfl := Option.some.inj hy
        exact .inl hfail
      | succ i =>
        obtain ⟨b, hb⟩ := hbefore 0 (Nat.succ_pos i) x rfl
        have hrest := ih.mpr ⟨i, y, hy, hfail, fun j hj => hbefore (j + 1) (Nat.succ_lt_succ hj)⟩
        exact .inr ⟨b, hb, bind_eq_error.mpr (.inl hrest)⟩

end Except

inductive Breach where
  /-- A sum of 64-bit offsets that does not fit in 64 bits. -/
  | overflow
  /-- A slice that reaches outside its byte string. -/
  | outOfRange
  /-- `rsp` as an index register. -/
  | stackPointerIndex
  /-- A byte store from a register other than `rax`, `rcx`, `rdx`, `rbx`. -/
  | wideByteSource
  /-- A label name that nothing introduced. -/
  | unknownName
  deriving DecidableEq, Repr

section

variable {α : Type}

/-- The entry at an index, which has to be there. -/
def entryAt (xs : Array α) (i : Nat) : Except Breach α :=
  match xs[i]? with
  | some a => .ok a
  | none => .error .outOfRange

/-- Replaces the entry at an index, which has to be there. -/
def replaceAt (xs : Array α) (i : Nat) (a : α) : Except Breach (Array α) :=
  if i < xs.size then .ok (xs.setIfInBounds i a) else .error .outOfRange

theorem entryAt_of_getElem? {xs : Array α} {i : Nat} {a : α} (h : xs[i]? = some a) :
    entryAt xs i = .ok a := by
  rw [entryAt, h]

theorem getElem?_of_entryAt {xs : Array α} {i : Nat} {a : α} (h : entryAt xs i = .ok a) :
    xs[i]? = some a := by
  unfold entryAt at h
  split at h
  next b hb => rw [hb, Except.ok.inj h]
  next => cases h

theorem replaceAt_of_lt {xs : Array α} {i : Nat} (h : i < xs.size) (a : α) :
    replaceAt xs i a = .ok (xs.setIfInBounds i a) :=
  if_pos h

end

/-- Why an operation gave no result: a broken precondition, or an error it reports. -/
inductive Refusal (ε : Type) where
  | breach (b : Breach)
  | error (e : ε)
  deriving DecidableEq, Repr

namespace Refusal

variable {ε ε' α : Type}

def map (f : ε → ε') : Refusal ε → Refusal ε'
  | .breach b => .breach b
  | .error e => .error (f e)

/-- A computation that can only break a precondition. -/
def ofBreach : Except Breach α → Except (Refusal ε) α
  | .ok a => .ok a
  | .error b => .error (.breach b)

theorem ofBreach_eq_ok {x : Except Breach α} {a : α} :
    (ofBreach x : Except (Refusal ε) α) = .ok a ↔ x = .ok a := by
  cases x <;> simp [ofBreach]

/-- A computation that can only report an error. -/
def ofError : Except ε α → Except (Refusal ε) α
  | .ok a => .ok a
  | .error e => .error (.error e)

theorem ofError_eq_ok {x : Except ε α} {a : α} : ofError x = .ok a ↔ x = .ok a := by
  cases x <;> simp [ofError]

end Refusal

end TapeLang
