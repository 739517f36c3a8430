import Mathlib

/-! # Computations that can fault

Computations with a state, for which `none` is a fault.
-/

namespace SuBinary

abbrev FaultM (State : Type) := StateT State Option

namespace FaultM

variable {State Value Result : Type} {first : FaultM State Value}
  {next : Value → FaultM State Result} {state middle : State}

theorem run_bind {value : Value} (ran : first state = some (value, middle)) :
    (first >>= next) state = next value middle := by
  simp [bind, StateT.bind, ran]

theorem run_bind_none (faults : first state = none) : (first >>= next) state = none := by
  simp [bind, StateT.bind, faults]

theorem bind_some {result : Result × State} :
    (first >>= next) state = some result ↔
      ∃ value middle, first state = some (value, middle) ∧ next value middle = some result := by
  constructor
  · intro ran
    cases step : first state with
    | none =>
        rw [run_bind_none step] at ran
        cases ran
    | some pair =>
        rw [run_bind step] at ran
        exact ⟨pair.1, pair.2, rfl, ran⟩
  · rintro ⟨value, middle, step, rest⟩
    rw [run_bind step]
    exact rest

theorem bind_congr {other : Value → FaultM State Result}
    (same : ∀ value middle, first state = some (value, middle) →
      next value middle = other value middle) :
    (first >>= next) state = (first >>= other) state := by
  cases step : first state with
  | none => rw [run_bind_none step, run_bind_none step]
  | some pair =>
      rw [run_bind step, run_bind step]
      exact same pair.1 pair.2 step

theorem pure_some {value : Value} {result : Value × State} :
    (pure value : FaultM State Value) state = some result ↔ result = (value, state) := by
  simp [pure, StateT.pure, eq_comm]

end FaultM

end SuBinary
