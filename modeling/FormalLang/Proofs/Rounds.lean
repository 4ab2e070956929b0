import FormalLang.Rounds
import Mathlib.Computability.StateTransition

/-!
# Loops without a number of rounds

`iterate` runs a loop for a number of rounds that is computed beforehand.  The loop itself has no
such number: it goes on as long as there is something to do, and if that is forever it has no value.
This is `StateTransition.eval`.

The two agree as soon as the rounds suffice (`eval_eq_some_iterate`), and a loop that has a value
has it after some number of rounds (`exists_iterate_of_mem_eval`).  Steps that can fail are steps
between results, and a failure is where they end (`resultStep`).
-/

namespace FormalLang

universe u v

variable {σ : Type u} {step : σ → Option σ}

theorem iterate_of_none {s : σ} (h : step s = none) : ∀ n : Nat, iterate step n s = s
  | 0 => rfl
  | n + 1 => by rw [iterate, h]

/-- The state in which some rounds leave a loop is one that the loop reaches. -/
theorem reaches_iterate (step : σ → Option σ) :
    ∀ (n : Nat) (s : σ), StateTransition.Reaches step s (iterate step n s)
  | 0, _ => .refl
  | n + 1, s => by
    rw [iterate]
    split
    · exact .refl
    · rename_i s' hs
      exact .head hs (reaches_iterate step n s')

/-- **A loop ends where the rounds leave it**, if nothing is left to do there. -/
theorem eval_eq_some_iterate {n : Nat} {s : σ} (h : step (iterate step n s) = none) :
    StateTransition.eval step s = .some (iterate step n s) :=
  Part.eq_some_iff.mpr (StateTransition.mem_eval.mpr ⟨reaches_iterate step n s, h⟩)

/-- **A loop that ends takes some number of rounds.** -/
theorem exists_iterate_of_mem_eval {s last : σ} (h : last ∈ StateTransition.eval step s) :
    ∃ n, iterate step n s = last ∧ step last = none := by
  obtain ⟨hreaches, hdone⟩ := StateTransition.mem_eval.mp h
  refine hreaches.head_induction_on ⟨0, rfl, hdone⟩ ?_
  rintro s s' hs - ⟨n, hlast, -⟩
  exact ⟨n + 1, by rw [iterate, show step s = some s' from hs]; exact hlast, hdone⟩

/-! ## Steps that can fail -/

variable {ε : Type v}

/-- Steps that can fail, as steps between results.  Nothing is left to do after a failure. -/
def resultStep {σ : Type u} (step : σ → Except ε (Option σ)) :
    Except ε σ → Option (Except ε σ)
  | .error _ => none
  | .ok s =>
    match step s with
    | .error e => some (.error e)
    | .ok none => none
    | .ok (some s') => some (.ok s')

theorem iterateE_eq_iterate {step : σ → Except ε (Option σ)} :
    ∀ (n : Nat) (s : σ), iterateE step n s = iterate (resultStep step) n (.ok s)
  | 0, _ => rfl
  | n + 1, s => by
    rw [iterateE, iterate]
    cases hs : step s with
    | error e =>
      simp only [resultStep, hs]
      exact (iterate_of_none rfl n).symm
    | ok next =>
      cases next with
      | none => simp only [resultStep, hs]
      | some s' =>
        simp only [resultStep, hs]
        exact iterateE_eq_iterate n s'

/-- **A loop whose steps could fail ends where the rounds leave it**, if nothing is left to do
there. -/
theorem eval_resultStep_eq_some {step : σ → Except ε (Option σ)} {n : Nat} {s last : σ}
    (h : iterateE step n s = .ok last) (hdone : step last = .ok none) :
    StateTransition.eval (resultStep step) (.ok s) = .some (.ok last) := by
  rw [iterateE_eq_iterate] at h
  rw [← h]
  refine eval_eq_some_iterate ?_
  simp only [h, resultStep, hdone]

end FormalLang
