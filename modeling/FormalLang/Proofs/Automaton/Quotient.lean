import FormalLang.Proofs.Automaton.Exploration
import Mathlib.Data.Fintype.Card

/-!
# One deterministic automaton as the quotient of another

A map of sets can take the states of one automaton to those of another (`Dfa.Sends`).  The second
automaton is a quotient of the first if the map takes all of its states, its start, its transitions
and its acceptance along (`Dfa.IsQuotient`); it has no more states then.

**Explorations.**  It is enough that the map takes moves to moves and that no others leave the image
of a set (`Exploration.Folds`), for both automata have only states that a word leads to
(`Exploration.exists_follows_of_mem_found`), and the same words lead to related sets.
-/

namespace FormalLang

/-! ## 1. Quotients -/

namespace Dfa

/-- Whether a map takes the members of a state of one automaton to those of a state of another. -/
def Sends (a b : Dfa) (f : Members → Members) (i j : Nat) : Prop :=
  ∃ s t, a.state? i = some s ∧ b.state? j = some t ∧ t.members = f s.members

/-- **Whether an automaton is the quotient of another one** by a map of members. -/
structure IsQuotient (a b : Dfa) (f : Members → Members) : Prop where
  /-- The same words have a state, and these states are related. -/
  run : ∀ w, a.run w = none ∧ b.run w = none ∨
    ∃ i j, a.run w = some i ∧ b.run w = some j ∧ a.Sends b f i j
  start : a.Sends b f a.start b.start
  accepting : ∀ i j, a.Sends b f i j → (a.isAccepting i = true ↔ b.isAccepting j = true)
  /-- Related states have transitions on the same characters, and these lead to related states. -/
  transition : ∀ i j, a.Sends b f i j → ∀ c, a.transition? i c = none ∧ b.transition? j c = none ∨
    ∃ i' j', a.transition? i c = some i' ∧ b.transition? j c = some j' ∧ a.Sends b f i' j'
  /-- Every state is sent to one state. -/
  total : ∀ i < a.size, ∃ j < b.size, a.Sends b f i j
  unique : ∀ i j j', a.Sends b f i j → a.Sends b f i j' → j = j'
  onto : ∀ j < b.size, ∃ i < a.size, a.Sends b f i j

/-- **A quotient has no more states.** -/
theorem IsQuotient.size_le {a b : Dfa} {f : Members → Members} (h : a.IsQuotient b f) :
    b.size ≤ a.size := by
  have hback : ∀ j : Fin b.size, ∃ i : Fin a.size, a.Sends b f i j := by
    intro j
    obtain ⟨i, hi, hsends⟩ := h.onto j j.isLt
    exact ⟨⟨i, hi⟩, hsends⟩
  choose back hsends using hback
  have hinjective : Function.Injective back := by
    intro j j' heq
    exact Fin.ext (h.unique _ _ _ (hsends j) (heq ▸ hsends j'))
  have hcard := Fintype.card_le_of_injective back hinjective
  rwa [Fintype.card_fin, Fintype.card_fin] at hcard

end Dfa

/-! ## 2. Reached sets -/

theorem Follows.snoc {next : Members → List (Char × Members)} {s t r : Members} {c : Char}
    {w : List Char} (h : Follows next s w t) (move : (c, r) ∈ next t) :
    Follows next s (w ++ [c]) r := by
  induction h with
  | nil s => exact .cons move (.nil r)
  | cons first _ ih => exact .cons first (ih move)

namespace Exploration

/-- **Every set that is found is reached by a word.** -/
theorem exists_follows_of_mem_found {next : Members → List (Char × Members)} {start t : Members}
    {n : Nat} (ht : t ∈ (run next n start).found) : ∃ w, Follows next start w t := by
  refine iterate_invariant (P := fun e => ∀ t ∈ e.found, ∃ w, Follows next start w t)
    (fun e e' h hstep t ht => ?_) _ (begin start) (fun t ht => ?_) t ht
  · unfold step at hstep
    split at hstep
    · contradiction
    · rename_i id rest _
      split at hstep
      · obtain rfl := Option.some.inj hstep
        exact h t ht
      · rename_i s hs
        obtain rfl := Option.some.inj hstep
        have hnoted := noted_foldl id (next s) { e with pending := rest }
        obtain ⟨i, hi⟩ := List.getElem?_of_mem ht
        rcases hnoted.found i t hi with hold | ⟨-, c, hc⟩
        · exact h t (List.mem_of_getElem? hold)
        · obtain ⟨w, hw⟩ := h s (List.mem_of_getElem? hs)
          exact ⟨w ++ [c], hw.snoc hc⟩
  · obtain rfl := List.mem_singleton.mp ht
    exact ⟨[], .nil t⟩

/-! ## 3. Moves under a map -/

/-- **Whether a map takes the moves between sets to others**, and no others leave the image of a
set. -/
structure Folds (next next' : Members → List (Char × Members)) (f : Members → Members) : Prop where
  moves : ∀ s c t, (c, t) ∈ next s → (c, f t) ∈ next' (f s)
  lifts : ∀ s c t', (c, t') ∈ next' (f s) → ∃ t, (c, t) ∈ next s ∧ f t = t'

section Folds

variable {next next' : Members → List (Char × Members)} {f : Members → Members} {start : Members}
  {e e' : Exploration} {accepting accepting' : Members → Bool}

theorem Folds.follows (h : Folds next next' f) {s t : Members} {w : List Char}
    (hfollows : Follows next s w t) : Follows next' (f s) w (f t) := by
  induction hfollows with
  | nil s => exact .nil (f s)
  | cons move _ ih => exact .cons (h.moves _ _ _ move) ih

theorem Folds.exists_follows (h : Folds next next' f) : ∀ {w : List Char} {s t' : Members},
    Follows next' (f s) w t' → ∃ t, Follows next s w t ∧ f t = t'
  | [], s, _, hfollows => by
    cases hfollows
    exact ⟨s, .nil s, rfl⟩
  | c :: w, s, _, hfollows => by
    cases hfollows with
    | cons move rest =>
      obtain ⟨t, hmove, rfl⟩ := h.lifts s c _ move
      obtain ⟨r, hr, rfl⟩ := h.exists_follows rest
      exact ⟨r, .cons hmove hr, rfl⟩

theorem sends_toDfa_iff {i j : Nat} :
    (e.toDfa accepting).Sends (e'.toDfa accepting') f i j ↔
      ∃ s, e.found[i]? = some s ∧ e'.found[j]? = some (f s) := by
  simp only [Dfa.Sends, state?_toDfa, Option.map_eq_some_iff]
  constructor
  · rintro ⟨_, _, ⟨s, hs, rfl⟩, ⟨t, ht, rfl⟩, hmembers⟩
    exact ⟨s, hs, ht.trans (congrArg some hmembers)⟩
  · rintro ⟨s, hs, ht⟩
    exact ⟨_, _, ⟨s, hs, rfl⟩, ⟨f s, ht, rfl⟩, rfl⟩

/-! ## 4. Automata under a map -/

section Explored

variable (h : Folds next next' f) (he : Explored next start e)
  (he' : Explored next' (f start) e')

include h he he'

/-- A set that moves lead to is found, and so is its image. -/
theorem Folds.exists_sends_of_follows {t : Members} {w : List Char}
    (hfollows : Follows next start w t) :
    ∃ i j : Nat, e.found[i]? = some t ∧ e'.found[j]? = some (f t) := by
  obtain ⟨i, hi⟩ := List.getElem?_of_mem
    (Follows.mem_found he hfollows (List.mem_of_getElem? he.begins))
  obtain ⟨j, hj⟩ := List.getElem?_of_mem
    (Follows.mem_found he' (h.follows hfollows) (List.mem_of_getElem? he'.begins))
  exact ⟨i, j, hi, hj⟩

variable (deterministic : ∀ s c t t', (c, t) ∈ next s → (c, t') ∈ next s → t = t')
  (deterministic' : ∀ s c t t', (c, t) ∈ next' s → (c, t') ∈ next' s → t = t')

include deterministic deterministic'

/-- **Words lead to related states or to none.** -/
theorem Folds.run_cases (w : List Char) :
    (e.toDfa accepting).run w = none ∧ (e'.toDfa accepting').run w = none ∨
      ∃ i j, (e.toDfa accepting).run w = some i ∧ (e'.toDfa accepting').run w = some j ∧
        (e.toDfa accepting).Sends (e'.toDfa accepting') f i j := by
  have hboth : ∀ {t : Members}, Follows next start w t → ∃ i j,
      (e.toDfa accepting).run w = some i ∧ (e'.toDfa accepting').run w = some j ∧
        (e.toDfa accepting).Sends (e'.toDfa accepting') f i j := by
    intro t hfollows
    obtain ⟨i, j, hi, hj⟩ := h.exists_sends_of_follows he he' hfollows
    exact ⟨i, j, (he.run_iff deterministic).mpr ⟨t, hfollows, hi⟩,
      (he'.run_iff deterministic').mpr ⟨f t, h.follows hfollows, hj⟩,
      sends_toDfa_iff.mpr ⟨t, hi, hj⟩⟩
  cases hrun : (e.toDfa accepting).run w with
  | some i =>
    obtain ⟨t, hfollows, -⟩ := (he.run_iff deterministic).mp hrun
    obtain ⟨i', j, hi', hj⟩ := hboth hfollows
    exact .inr ⟨i', j, hrun.symm.trans hi', hj⟩
  | none =>
    cases hrun' : (e'.toDfa accepting').run w with
    | none => exact .inl ⟨rfl, rfl⟩
    | some j =>
      obtain ⟨t', hfollows', -⟩ := (he'.run_iff deterministic').mp hrun'
      obtain ⟨t, hfollows, -⟩ := h.exists_follows hfollows'
      obtain ⟨i, _, hi, -⟩ := hboth hfollows
      exact absurd (hrun.symm.trans hi) nofun

/-- **Related states have related transitions, or none.** -/
theorem Folds.transition_cases {i j : Nat}
    (hsends : (e.toDfa accepting).Sends (e'.toDfa accepting') f i j) (c : Char) :
    (e.toDfa accepting).transition? i c = none ∧ (e'.toDfa accepting').transition? j c = none ∨
      ∃ i' j', (e.toDfa accepting).transition? i c = some i' ∧
        (e'.toDfa accepting').transition? j c = some j' ∧
        (e.toDfa accepting).Sends (e'.toDfa accepting') f i' j' := by
  obtain ⟨s, hs, hs'⟩ := sends_toDfa_iff.mp hsends
  have hboth : ∀ {t : Members}, (c, t) ∈ next s → ∃ i' j',
      (e.toDfa accepting).transition? i c = some i' ∧
        (e'.toDfa accepting').transition? j c = some j' ∧
        (e.toDfa accepting).Sends (e'.toDfa accepting') f i' j' := by
    intro t move
    have move' := h.moves s c t move
    obtain ⟨i', hi'⟩ := List.getElem?_of_mem (he.closed s (List.mem_of_getElem? hs) c t move)
    obtain ⟨j', hj'⟩ := List.getElem?_of_mem
      (he'.closed (f s) (List.mem_of_getElem? hs') c (f t) move')
    exact ⟨i', j', (he.transition?_iff deterministic).mpr ⟨s, t, hs, move, hi'⟩,
      (he'.transition?_iff deterministic').mpr ⟨f s, f t, hs', move', hj'⟩,
      sends_toDfa_iff.mpr ⟨t, hi', hj'⟩⟩
  cases hmove : (e.toDfa accepting).transition? i c with
  | some i' =>
    obtain ⟨s', t, hs'', move, -⟩ := (he.transition?_iff deterministic).mp hmove
    obtain rfl := Option.some.inj (hs.symm.trans hs'')
    obtain ⟨i'', j', hi'', hj'⟩ := hboth move
    exact .inr ⟨i'', j', hmove.symm.trans hi'', hj'⟩
  | none =>
    cases hmove' : (e'.toDfa accepting').transition? j c with
    | none => exact .inl ⟨rfl, rfl⟩
    | some j' =>
      obtain ⟨s', t', hs'', move', -⟩ := (he'.transition?_iff deterministic').mp hmove'
      obtain rfl := Option.some.inj (hs'.symm.trans hs'')
      obtain ⟨t, move, -⟩ := h.lifts s c t' move'
      obtain ⟨i', _, hi', -⟩ := hboth move
      exact absurd (hmove.symm.trans hi') nofun

/-- **A map that folds the moves makes a quotient**, if it takes the accepting sets along. -/
theorem Folds.isQuotient
    (reached : ∀ t ∈ e.found, ∃ w, Follows next start w t)
    (reached' : ∀ t ∈ e'.found, ∃ w, Follows next' (f start) w t)
    (haccepting : ∀ s, accepting s = true ↔ accepting' (f s) = true) :
    (e.toDfa accepting).IsQuotient (e'.toDfa accepting') f := by
  have hsize : ∀ {e : Exploration} {accepting : Members → Bool},
      (e.toDfa accepting).size = e.found.length := List.length_mapIdx
  have hlt : ∀ {found : List Members} {i : Nat} {s : Members}, found[i]? = some s →
      i < found.length := fun hs => (List.getElem?_eq_some_iff.mp hs).1
  refine ⟨h.run_cases he he' deterministic deterministic', ?_, fun i j hsends => ?_,
    fun i j hsends => h.transition_cases he he' deterministic deterministic' hsends,
    fun i hi => ?_, fun i j j' hj hj' => ?_, fun j hj => ?_⟩
  · exact sends_toDfa_iff.mpr ⟨start, he.begins, he'.begins⟩
  · obtain ⟨s, hs, hs'⟩ := sends_toDfa_iff.mp hsends
    rw [isAccepting_toDfa_iff, isAccepting_toDfa_iff]
    simp only [hs, hs', Option.some.injEq, exists_eq_left', haccepting]
  · rw [hsize] at hi ⊢
    obtain ⟨w, hfollows⟩ := reached _ (List.getElem_mem hi)
    obtain ⟨_, j, -, hj⟩ := h.exists_sends_of_follows he he' hfollows
    exact ⟨j, hlt hj, sends_toDfa_iff.mpr ⟨_, List.getElem?_eq_getElem hi, hj⟩⟩
  · obtain ⟨s, hs, hs'⟩ := sends_toDfa_iff.mp hj
    obtain ⟨t, ht, ht'⟩ := sends_toDfa_iff.mp hj'
    obtain rfl := Option.some.inj (hs.symm.trans ht)
    exact he'.index_unique hs' ht'
  · rw [hsize] at hj ⊢
    obtain ⟨w, hfollows'⟩ := reached' _ (List.getElem_mem hj)
    obtain ⟨t, hfollows, ht⟩ := h.exists_follows hfollows'
    obtain ⟨i, _, hi, -⟩ := h.exists_sends_of_follows he he' hfollows
    exact ⟨i, hlt hi, sends_toDfa_iff.mpr ⟨t, hi, ht ▸ List.getElem?_eq_getElem hj⟩⟩

end Explored

end Folds

end Exploration

end FormalLang
