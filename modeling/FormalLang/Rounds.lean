/-!
# Loops with a number of rounds

A loop is a step function that either goes on from a new state or says that nothing is left to do.
`iterate` runs it for a given number of rounds and returns the state that it is in then.  The
modules that loop compute a number of rounds that suffices from their input; that it does suffice
is the statement that the step has nothing left to do in the state returned.
-/

namespace FormalLang

universe u v

/-- Takes steps until nothing is left to do, or the rounds are used up. -/
def iterate {σ : Type u} (step : σ → Option σ) : Nat → σ → σ
  | 0, s => s
  | n + 1, s =>
    match step s with
    | none => s
    | some s' => iterate step n s'

/-- The same for steps that can fail; the first failure is the result. -/
def iterateE {ε : Type v} {σ : Type u} (step : σ → Except ε (Option σ)) : Nat → σ → Except ε σ
  | 0, s => .ok s
  | n + 1, s =>
    match step s with
    | .error e => .error e
    | .ok none => .ok s
    | .ok (some s') => iterateE step n s'

variable {σ : Type u} {step : σ → Option σ}

/-- **What every step keeps, the loop keeps.** -/
theorem iterate_invariant {P : σ → Prop} (keeps : ∀ s s', P s → step s = some s' → P s') :
    ∀ (n : Nat) (s : σ), P s → P (iterate step n s)
  | 0, _, h => h
  | n + 1, s, h => by
    simp only [iterate]
    split
    · exact h
    · rename_i s' hs
      exact iterate_invariant keeps n s' (keeps s s' h hs)

/-- The same for steps that can fail. -/
theorem iterateE_invariant {ε : Type v} {step : σ → Except ε (Option σ)} {P : σ → Prop}
    (keeps : ∀ s s', P s → step s = .ok (some s') → P s') :
    ∀ (n : Nat) (s last : σ), P s → iterateE step n s = .ok last → P last
  | 0, s, last, h, hlast => Except.ok.inj hlast ▸ h
  | n + 1, s, last, h, hlast => by
    rw [iterateE] at hlast
    split at hlast
    · contradiction
    · exact Except.ok.inj hlast ▸ h
    · rename_i s' hs
      exact iterateE_invariant keeps n s' last (keeps s s' h hs) hlast

/-- A loop whose steps could fail, but none does, is the loop of the steps that they take, seen
through a function of the state. -/
theorem iterateE_map_eq_ok {ε : Type v} {τ : Type u} {stepE : τ → Except ε (Option τ)} {f : σ → τ}
    {P : σ → Prop}
    (keeps : ∀ s, P s → stepE (f s) = .ok ((step s).map f) ∧ ∀ s', step s = some s' → P s') :
    ∀ (n : Nat) (s : σ), P s → iterateE stepE n (f s) = .ok (f (iterate step n s))
  | 0, _, _ => rfl
  | n + 1, s, h => by
    obtain ⟨hstep, hP⟩ := keeps s h
    rw [iterateE, iterate, hstep]
    cases hs : step s with
    | none => rfl
    | some s' => exact iterateE_map_eq_ok keeps n s' (hP s' hs)

/-- The same for steps on the state itself. -/
theorem iterateE_eq_ok {ε : Type v} {stepE : σ → Except ε (Option σ)} {P : σ → Prop}
    (keeps : ∀ s, P s → stepE s = .ok (step s) ∧ ∀ s', step s = some s' → P s') (n : Nat) (s : σ)
    (h : P s) : iterateE stepE n s = .ok (iterate step n s) := by
  refine iterateE_map_eq_ok (f := id) (fun s h => ?_) n s h
  obtain ⟨hstep, hP⟩ := keeps s h
  exact ⟨by rw [Option.map_id]; exact hstep, hP⟩

/-- **A loop whose steps lower a measure below the number of rounds has nothing left to do.** -/
theorem iterate_done {P : σ → Prop} (measure : σ → Nat)
    (keeps : ∀ s s', P s → step s = some s' → P s' ∧ measure s' < measure s) :
    ∀ (n : Nat) (s : σ), P s → measure s < n → step (iterate step n s) = none
  | 0, _, _, h => absurd h (Nat.not_lt_zero _)
  | n + 1, s, h, hn => by
    simp only [iterate]
    split
    · assumption
    · rename_i s' hs
      obtain ⟨h', hlt⟩ := keeps s s' h hs
      exact iterate_done measure keeps n s' h' (by omega)

/-- **The same for steps that can fail.**  If the invariant rules failures out, the loop ends in a
state that keeps it and has nothing left to do. -/
theorem iterateE_done {ε : Type v} {step : σ → Except ε (Option σ)} {P : σ → Prop}
    (measure : σ → Nat)
    (keeps : ∀ s, P s → step s = .ok none ∨
      ∃ s', step s = .ok (some s') ∧ P s' ∧ measure s' < measure s) :
    ∀ (n : Nat) (s : σ), P s → measure s < n →
      ∃ s', iterateE step n s = .ok s' ∧ P s' ∧ step s' = .ok none
  | 0, _, _, h => absurd h (Nat.not_lt_zero _)
  | n + 1, s, h, hn => by
    rcases keeps s h with hs | ⟨s', hs, h', hlt⟩
    · exact ⟨s, by rw [iterateE, hs], h, hs⟩
    · obtain ⟨last, hlast, hP, hdone⟩ := iterateE_done measure keeps n s' h' (by omega)
      exact ⟨last, by rw [iterateE, hs]; exact hlast, hP, hdone⟩

end FormalLang
