import FormalLang.Proofs.Automaton.Determinizing
import FormalLang.Proofs.Rounds
import Mathlib.Logic.Relation

/-!
# The epsilon closure is a closure operator

If the targets of all edges exist, the closure of existing states is exactly what can be reached
from them by edges without input, and the search for it ends and asks for no missing state
(`Nfa.closure_reaches_exactly`).

**The laws come from exactness alone.**  What is reached contains the seeds, grows with them, holds
what is reached from it, and is put together from what is reached from each seed.  So the closure
does too, and it depends neither on the order of the seeds nor on how often each of them is given.
-/

namespace FormalLang.Nfa

/-! ## 1. Reachability -/

/-- **Whether zero or more edges without input lead from one state to another.** -/
def Reaches (nfa : Nfa) : Nat → Nat → Prop :=
  Relation.ReflTransGen fun p q => nfa.HasEdge p .epsilon q

variable {nfa : Nfa}

/-- A path without input is made of edges without input. -/
theorem path_nil_iff_reaches {p q : Nat} : nfa.Path p [] q ↔ nfa.Reaches p q := by
  constructor
  · intro h
    exact h.stay (fun _ _ hreaches hedge => Relation.ReflTransGen.tail hreaches hedge) rfl .refl
  · intro h
    induction h with
    | refl => exact .refl p
    | tail _ hedge ih => exact ih.trans (.skip hedge (.refl _))

/-! ## 2. The search without a number of rounds -/

/-- **The closure as a search that goes on until no state is pending**, and that looks up every
state whose edges it follows.  It has no value if it never ends. -/
def searchClosure (nfa : Nfa) : List Nat →. Except Lapse (OrderedSet Nat) := fun seeds =>
  (StateTransition.eval (resultStep (Search.tryStep nfa))
    (.ok ⟨OrderedSet.ofList seeds, seeds.reverse⟩)).map (Except.map Search.seen)

section

variable (targets_lt : ∀ p label q, nfa.HasEdge p label q → q < nfa.size)

include targets_lt

/-- **The search ends**, asks for no missing state, and finds the closure. -/
theorem searchClosure_eq {seeds : List Nat} (hseeds : ∀ p ∈ seeds, p < nfa.size) :
    nfa.searchClosure seeds = .some (.ok (nfa.closure seeds)) := by
  obtain ⟨hlast, hdone⟩ := Search.sound_last targets_lt hseeds rfl
  have hloop := eval_resultStep_eq_some
    (Search.iterateE_tryStep_eq targets_lt hseeds (seeds.length + nfa.size + 1))
    (hlast.tryStep_eq.trans (by rw [hdone]))
  rw [searchClosure, hloop, Part.map_some]
  rfl

/-! ## 3. The laws -/

theorem mem_closure_iff_reaches {seeds : List Nat} (hseeds : ∀ p ∈ seeds, p < nfa.size)
    {q : Nat} : q ∈ nfa.closure seeds ↔ ∃ p ∈ seeds, nfa.Reaches p q := by
  simp only [mem_closure_iff targets_lt hseeds, path_nil_iff_reaches]

theorem subset_closure {seeds : List Nat} (hseeds : ∀ p ∈ seeds, p < nfa.size) {p : Nat}
    (hp : p ∈ seeds) : p ∈ nfa.closure seeds :=
  (mem_closure_iff_reaches targets_lt hseeds).mpr ⟨p, hp, .refl⟩

theorem closure_lt_size {seeds : List Nat} (hseeds : ∀ p ∈ seeds, p < nfa.size) {q : Nat}
    (hq : q ∈ nfa.closure seeds) : q < nfa.size := by
  obtain ⟨p, hp, hpath⟩ := (mem_closure_iff targets_lt hseeds).mp hq
  exact hpath.lt_size targets_lt (hseeds p hp)

theorem closure_mono {few many : List Nat} (hmany : ∀ p ∈ many, p < nfa.size)
    (hsub : ∀ p ∈ few, p ∈ many) {q : Nat} (hq : q ∈ nfa.closure few) : q ∈ nfa.closure many := by
  have hfew : ∀ p ∈ few, p < nfa.size := fun p hp => hmany p (hsub p hp)
  obtain ⟨p, hp, hreaches⟩ := (mem_closure_iff_reaches targets_lt hfew).mp hq
  exact (mem_closure_iff_reaches targets_lt hmany).mpr ⟨p, hsub p hp, hreaches⟩

theorem closure_closure {seeds : List Nat} (hseeds : ∀ p ∈ seeds, p < nfa.size) :
    nfa.closure (nfa.closure seeds).toList = nfa.closure seeds := by
  have hclosure : ∀ p ∈ (nfa.closure seeds).toList, p < nfa.size :=
    fun p hp => closure_lt_size targets_lt hseeds hp
  refine OrderedSet.ext fun q => ?_
  constructor
  · intro hq
    obtain ⟨r, hr, hreaches⟩ := (mem_closure_iff_reaches targets_lt hclosure).mp hq
    obtain ⟨p, hp, hreaches'⟩ := (mem_closure_iff_reaches targets_lt hseeds).mp hr
    exact (mem_closure_iff_reaches targets_lt hseeds).mpr
      ⟨p, hp, hreaches'.trans hreaches⟩
  · exact subset_closure targets_lt hclosure

theorem closure_union {left right both : List Nat} (hboth : ∀ p ∈ both, p < nfa.size)
    (hmem : ∀ p, p ∈ both ↔ p ∈ left ∨ p ∈ right) :
    nfa.closure both = nfa.closure left ∪ nfa.closure right := by
  have hleft : ∀ p ∈ left, p ∈ both := fun p hp => (hmem p).mpr (.inl hp)
  have hright : ∀ p ∈ right, p ∈ both := fun p hp => (hmem p).mpr (.inr hp)
  refine OrderedSet.ext fun q => ?_
  rw [OrderedSet.mem_union]
  constructor
  · intro hq
    obtain ⟨p, hp, hreaches⟩ := (mem_closure_iff_reaches targets_lt hboth).mp hq
    refine ((hmem p).mp hp).imp (fun hp => ?_) fun hp => ?_
    · exact (mem_closure_iff_reaches targets_lt fun p hp => hboth p (hleft p hp)).mpr
        ⟨p, hp, hreaches⟩
    · exact (mem_closure_iff_reaches targets_lt fun p hp => hboth p (hright p hp)).mpr
        ⟨p, hp, hreaches⟩
  · rintro (hq | hq)
    · exact closure_mono targets_lt hboth hleft hq
    · exact closure_mono targets_lt hboth hright hq

end

/-- **The closure of existing states is exactly what edges without input reach.**

The search for it ends without asking for a missing state, whatever the order of the seeds and
however often they are given.  Hence the closure contains the seeds, closing it again adds nothing,
it grows with the seeds, and if the seeds of one closure are those of two others together, it is the
union of the two. -/
theorem closure_reaches_exactly
    (targets_lt : ∀ p label q, nfa.HasEdge p label q → q < nfa.size) :
    (∀ seeds : List Nat, (∀ p ∈ seeds, p < nfa.size) →
      nfa.searchClosure seeds = .some (.ok (nfa.closure seeds)) ∧
      nfa.tryClosure seeds = .ok (nfa.closure seeds) ∧
      (∀ q, q ∈ nfa.closure seeds ↔ ∃ p ∈ seeds, nfa.Reaches p q) ∧
      (∀ p ∈ seeds, p ∈ nfa.closure seeds) ∧
      nfa.closure (nfa.closure seeds).toList = nfa.closure seeds) ∧
    (∀ few many : List Nat, (∀ p ∈ many, p < nfa.size) → (∀ p ∈ few, p ∈ many) →
      ∀ q ∈ nfa.closure few, q ∈ nfa.closure many) ∧
    ∀ left right both : List Nat, (∀ p ∈ both, p < nfa.size) →
      (∀ p, p ∈ both ↔ p ∈ left ∨ p ∈ right) →
      nfa.closure both = nfa.closure left ∪ nfa.closure right := by
  refine ⟨fun seeds hseeds => ?_, fun few many hmany hsub q hq => ?_,
    fun left right both hboth hmem => ?_⟩
  · have hexist : nfa.hasStates seeds = true :=
      List.all_eq_true.mpr fun p hp => decide_eq_true (hseeds p hp)
    exact ⟨searchClosure_eq targets_lt hseeds, by rw [tryClosure, if_pos hexist],
      fun q => mem_closure_iff_reaches targets_lt hseeds,
      fun p hp => subset_closure targets_lt hseeds hp, closure_closure targets_lt hseeds⟩
  · exact closure_mono targets_lt hmany hsub hq
  · exact closure_union targets_lt hboth hmem

/-- A cycle without input with an edge that is there twice, a loop at one state, and a state that is
reached by reading only. -/
def whirl : Nfa :=
  ofEdges 6 0 5 [⟨0, .epsilon, 1⟩, ⟨1, .epsilon, 2⟩, ⟨1, .epsilon, 2⟩, ⟨2, .epsilon, 0⟩,
    ⟨3, .epsilon, 3⟩, ⟨3, .epsilon, 4⟩, ⟨4, .char 'a', 5⟩]

theorem whirl_targets_lt (p : Nat) (label : Label) (q : Nat) (h : whirl.HasEdge p label q) :
    q < whirl.size :=
  (built_ofEdges (by decide) (by decide) (by decide)).wellFormed.targets_lt p label q h

/-- The states `3` and `1`, the first of them twice, reach all states but the one behind a
character, and `1` alone reaches its cycle. -/
theorem closure_reaches_exactly_whirl :
    (∀ p label q, whirl.HasEdge p label q → q < whirl.size) ∧
    (∀ p ∈ [3, 1, 3], p < whirl.size) ∧
    whirl.searchClosure [3, 1, 3] = .some (.ok (whirl.closure [3, 1, 3])) ∧
    (∀ q, (∃ p ∈ [3, 1, 3], whirl.Reaches p q) ↔ q < 5) ∧
    whirl.closure (whirl.closure [3, 1, 3]).toList = whirl.closure [3, 1, 3] ∧
    (∀ p ∈ [1], p ∈ [3, 1, 3]) ∧ (∀ q ∈ whirl.closure [1], q ∈ whirl.closure [3, 1, 3]) ∧
    (∀ p, p ∈ [3, 1, 3] ↔ p ∈ [1] ∨ p ∈ [3]) ∧
    whirl.closure [3, 1, 3] = whirl.closure [1] ∪ whirl.closure [3] := by
  obtain ⟨hseeds, hmono, hunion⟩ := closure_reaches_exactly whirl_targets_lt
  have hexist : ∀ p ∈ [3, 1, 3], p < whirl.size := by decide
  have hsub : ∀ p ∈ [1], p ∈ [3, 1, 3] := by decide
  have hmem : ∀ p, p ∈ [3, 1, 3] ↔ p ∈ [1] ∨ p ∈ [3] := fun p => by simp; omega
  have hlist : (whirl.closure [3, 1, 3]).toList = [0, 1, 2, 3, 4] := by decide +kernel
  obtain ⟨hsearch, -, hexact, -, hidempotent⟩ := hseeds [3, 1, 3] hexist
  refine ⟨whirl_targets_lt, hexist, hsearch, fun q => ?_, hidempotent, hsub,
    hmono [1] [3, 1, 3] hexist hsub, hmem, hunion [1] [3] [3, 1, 3] hexist hmem⟩
  rw [← hexact, OrderedSet.mem_def, hlist]
  simp only [List.mem_cons, List.not_mem_nil, or_false]
  omega

end FormalLang.Nfa
