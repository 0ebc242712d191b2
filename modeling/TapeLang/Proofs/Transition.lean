import Mathlib.Logic.Relation
import Mathlib.Tactic.Common

/-!
# Runs of transition systems

A deterministic system is a partial function `next?` on states; it stops where the function is
undefined. A ranked simulation carries the way a system stops over to another one, in both directions.
Where a system may go on in several ways, what holds of all the states it reaches is proved from one
cut point to the next.
-/

namespace TapeLang.Transition

variable {σ τ : Type}

/-- `Reaches next? n s t`: the system gets from `s` to `t` in `n` steps. -/
inductive Reaches (next? : σ → Option σ) : Nat → σ → σ → Prop where
  | refl (s : σ) : Reaches next? 0 s s
  | step {n : Nat} {s t u : σ} (first : next? s = some t) (tail : Reaches next? n t u) :
      Reaches next? (n + 1) s u

namespace Reaches

variable {next? : σ → Option σ} {m n : Nat} {s t u : σ}

theorem single (h : next? s = some t) : Reaches next? 1 s t :=
  .step h (.refl t)

theorem trans (h : Reaches next? m s t) (h' : Reaches next? n t u) :
    Reaches next? (m + n) s u := by
  induction h with
  | refl => simpa using h'
  | step first _ ih =>
    rw [Nat.add_right_comm]
    exact .step first (ih h')

/-- A run that stops goes through every state reached on the way. -/
theorem resume (h : Reaches next? m s t) (stopped : next? t = none) (h' : Reaches next? n s u) :
    ∃ k, m = n + k ∧ Reaches next? k u t := by
  induction h' generalizing m with
  | refl s => exact ⟨m, by omega, h⟩
  | @step n s v u first _ ih =>
    cases h with
    | refl => simp [stopped] at first
    | @step m _ v' _ first' tail' =>
      obtain rfl : v' = v := Option.some.inj (first'.symm.trans first)
      obtain ⟨k, hk, hrest⟩ := ih tail'
      exact ⟨k, by omega, hrest⟩

/-- A longer run goes through the states of a shorter one from the same start. -/
theorem drop (h : Reaches next? (m + n) s u) (h' : Reaches next? m s t) : Reaches next? n t u := by
  induction h' with
  | refl => simpa using h
  | @step m s v t first _ ih =>
    rw [Nat.add_right_comm] at h
    cases h with
    | @step _ _ v' _ first' tail' =>
      obtain rfl : v' = v := Option.some.inj (first'.symm.trans first)
      exact ih tail'

/-- Where a run stops is determined by where it starts. -/
theorem stop_unique (h : Reaches next? m s t) (ht : next? t = none) (h' : Reaches next? n s u)
    (hu : next? u = none) : t = u := by
  obtain ⟨k, -, hrest⟩ := h.resume ht h'
  cases hrest with
  | refl => rfl
  | step first _ => simp [hu] at first

/-- What every step preserves is preserved by a run. -/
theorem preserves {P : σ → Prop} (keep : ∀ s t, P s → next? s = some t → P t)
    (h : Reaches next? n s t) (hs : P s) : P t := by
  induction h with
  | refl => exact hs
  | step first _ ih => exact ih (keep _ _ hs first)

end Reaches

/-- A runner with fuel gives an answer exactly when steps lead to a stop that gives it. -/
theorem exists_fuel_iff {ρ : Type} {next? : σ → Option σ} {last : σ → Option ρ}
    {run : Nat → σ → Option ρ} (zero : ∀ s, run 0 s = none)
    (goes : ∀ fuel s t, next? s = some t → run (fuel + 1) s = run fuel t)
    (stops : ∀ fuel s, next? s = none → run (fuel + 1) s = last s) {s : σ} {r : ρ} :
    (∃ fuel, run fuel s = some r) ↔
      ∃ n t, Reaches next? n s t ∧ next? t = none ∧ last t = some r := by
  constructor
  · rintro ⟨fuel, h⟩
    induction fuel generalizing s with
    | zero => simp [zero] at h
    | succ fuel ih =>
      cases hs : next? s with
      | none => exact ⟨0, s, .refl s, hs, (stops _ _ hs).symm.trans h⟩
      | some t =>
        obtain ⟨n, u, hn, hstop⟩ := ih ((goes _ _ _ hs).symm.trans h)
        exact ⟨n + 1, u, .step hs hn, hstop⟩
  · rintro ⟨n, t, hn, hstop, hlast⟩
    induction hn with
    | refl s => exact ⟨1, (stops _ _ hstop).trans hlast⟩
    | step first _ ih =>
      obtain ⟨fuel, h⟩ := ih hstop hlast
      exact ⟨fuel + 1, (goes _ _ _ first).trans h⟩

/-- A step of the source is matched by a run of the target, which may be empty only if the rank falls. A
stop of the source is matched by a run to a stop with the same outcome. -/
structure Simulation (source : σ → Option σ) (target : τ → Option τ) (R : σ → τ → Prop)
    (rank : σ → Nat) (Same : σ → τ → Prop) : Prop where
  step : ∀ {s s' t}, R s t → source s = some s' →
    ∃ n t', Reaches target n t t' ∧ R s' t' ∧ (n = 0 → rank s' < rank s)
  stop : ∀ {s t}, R s t → source s = none →
    ∃ n t', Reaches target n t t' ∧ target t' = none ∧ Same s t'

namespace Simulation

variable {source : σ → Option σ} {target : τ → Option τ} {R : σ → τ → Prop} {rank : σ → Nat}
  {Same : σ → τ → Prop} {n : Nat} {s s' : σ} {t t' : τ}

theorem forward (sim : Simulation source target R rank Same) (related : R s t)
    (run : Reaches source n s s') (stopped : source s' = none) :
    ∃ n t', Reaches target n t t' ∧ target t' = none ∧ Same s' t' := by
  induction run generalizing t with
  | refl => exact sim.stop related stopped
  | step first _ ih =>
    obtain ⟨m, u, hm, hrel, -⟩ := sim.step related first
    obtain ⟨k, t', hk, hstop, hsame⟩ := ih hrel stopped
    exact ⟨m + k, t', hm.trans hk, hstop, hsame⟩

/-- By induction on the steps the target has left, and on the rank while it takes none. -/
theorem backward (sim : Simulation source target R rank Same) (related : R s t)
    (run : Reaches target n t t') (stopped : target t' = none) :
    ∃ n s', Reaches source n s s' ∧ source s' = none ∧ Same s' t' := by
  induction n using Nat.strongRecOn generalizing s t with
  | ind n ihSteps =>
    induction hrank : rank s using Nat.strongRecOn generalizing s t with
    | ind r ihRank =>
      cases hs : source s with
      | none =>
        obtain ⟨m, u, hm, hstop, hsame⟩ := sim.stop related hs
        obtain rfl := run.stop_unique stopped hm hstop
        exact ⟨0, s, .refl s, hs, hsame⟩
      | some v =>
        obtain ⟨m, u, hm, hrel, hfall⟩ := sim.step related hs
        obtain ⟨k, rfl, hrest⟩ := run.resume stopped hm
        have rest : ∃ n s', Reaches source n v s' ∧ source s' = none ∧ Same s' t' := by
          by_cases hzero : m = 0
          · subst hzero
            rw [Nat.zero_add] at run ihRank ihSteps
            exact ihRank (rank v) (by have := hfall rfl; omega) hrel hrest rfl
          · exact ihSteps k (by omega) hrel hrest
        obtain ⟨l, s', hl, hstop, hsame⟩ := rest
        exact ⟨l + 1, s', .step hs hl, hstop, hsame⟩

end Simulation

/-! Cut points. -/

section

open Relation

variable {next : σ → σ → Prop} {Good Cut : σ → Prop} {start s : σ}

/-- Whichever way the system goes, its states are good up to the next cut point. -/
inductive GoodUntil (next : σ → σ → Prop) (Good Cut : σ → Prop) : σ → Prop where
  | cut {s : σ} (here : Cut s) : GoodUntil next Good Cut s
  | step {s : σ} (good : Good s) (tail : ∀ t, next s t → GoodUntil next Good Cut t) :
      GoodUntil next Good Cut s

/-- If cut points are good and so is everything between them, only good states are reached. -/
theorem good_of_reachable
    (onward : ∀ s, ReflTransGen next start s → Cut s →
      Good s ∧ ∀ t, next s t → GoodUntil next Good Cut t)
    (h : GoodUntil next Good Cut start) (reachable : ReflTransGen next start s) : Good s := by
  have until_cut : GoodUntil next Good Cut s := by
    induction reachable with
    | refl => exact h
    | tail before move ih =>
      cases ih with
      | cut here => exact (onward _ before here).2 _ move
      | step _ tail => exact tail _ move
  cases until_cut with
  | cut here => exact (onward s reachable here).1
  | step good _ => exact good

end

end TapeLang.Transition
