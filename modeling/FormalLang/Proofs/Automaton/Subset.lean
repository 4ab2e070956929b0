import FormalLang.Automaton.Subset
import FormalLang.Proofs.Automaton.Building
import FormalLang.Proofs.Automaton.Closure
import FormalLang.Proofs.Automaton.Exploration

/-!
# The subset automaton follows all paths at once

The state of the subset automaton after a word has for its members the states that paths with this
word lead to; there is such a state exactly if there is such a path (`toDfa_tracks_paths`).

* **The invariant** of a run is that no edge without input leaves the members (`Saturated`).  So a
  path out of a member reads its first character on an edge out of a member
  (`Saturated.exists_path_cons_iff`).
* **No empty state.**  Only characters that stand on an edge make a move, so that a move leads to a
  state with members.  This is where it matters that the automaton was built, for a listed label
  without an edge would lead to the empty set.
-/

namespace FormalLang

namespace Nfa

open Exploration

variable {nfa : Nfa} {s t : Members} {c : Char} {w : List Char}

/-! ## 1. Moves -/

theorem mem_moveOn_iff {q : Nat} :
    q ∈ nfa.moveOn s c ↔ ∃ p ∈ s, nfa.HasEdge p (.char c) q := by
  simp only [moveOn, OrderedSet.mem_unionOf, OrderedSet.mem_ofList]
  rfl

theorem Built.mem_symbolsOf_iff (built : nfa.Built) {p : Nat} :
    c ∈ nfa.symbolsOf p ↔ ∃ q, nfa.HasEdge p (.char c) q := by
  unfold symbolsOf
  cases hs : nfa.states[p]? with
  | none =>
    refine ⟨nofun, fun ⟨q, hedge⟩ => ?_⟩
    obtain ⟨state, hstate, -⟩ := hasEdge_iff.mp hedge
    rw [hs] at hstate
    contradiction
  | some state =>
    simp only [List.mem_filterMap]
    constructor
    · rintro ⟨label, hlabel, hc⟩
      cases label with
      | epsilon => contradiction
      | char d =>
        obtain rfl := Option.some.inj hc
        exact built.exists_edge_of_mem_keys hs hlabel
    · rintro ⟨q, hedge⟩
      obtain ⟨state', hstate', hq⟩ := hasEdge_iff.mp hedge
      obtain rfl := Option.some.inj (hs.symm.trans hstate')
      refine ⟨.char c, OrderedMap.mem_keys.mpr ?_, rfl⟩
      rw [State.targets] at hq
      cases hids : state.transitions.find? (.char c) with
      | none =>
        rw [hids] at hq
        contradiction
      | some ids => exact Option.isSome_iff_exists.mpr ⟨ids, hids⟩

theorem Built.mem_symbols_iff (built : nfa.Built) :
    c ∈ nfa.symbols s ↔ ∃ q, q ∈ nfa.moveOn s c := by
  simp only [symbols, OrderedSet.mem_unionOf, OrderedSet.mem_ofList, built.mem_symbolsOf_iff,
    mem_moveOn_iff]
  constructor
  · rintro ⟨p, hp, q, hedge⟩
    exact ⟨q, p, hp, hedge⟩
  · rintro ⟨q, p, hp, hedge⟩
    exact ⟨p, hp, q, hedge⟩

theorem mem_subsetMoves_iff : (c, t) ∈ nfa.subsetMoves s ↔
    c ∈ nfa.symbols s ∧ t = nfa.closure (nfa.moveOn s c).toList := by
  simp only [subsetMoves, List.mem_map, Prod.mk.injEq]
  constructor
  · rintro ⟨d, hd, rfl, rfl⟩
    exact ⟨hd, rfl⟩
  · rintro ⟨hc, rfl⟩
    exact ⟨c, hc, rfl, rfl⟩

theorem subsetMoves_deterministic (s : Members) (c : Char) (t t' : Members)
    (h : (c, t) ∈ nfa.subsetMoves s) (h' : (c, t') ∈ nfa.subsetMoves s) : t = t' :=
  (mem_subsetMoves_iff.mp h).2.trans (mem_subsetMoves_iff.mp h').2.symm

/-! ## 2. Saturated sets -/

/-- Whether no edge without input leaves a set of existing states. -/
structure Saturated (nfa : Nfa) (s : Members) : Prop where
  exist : ∀ p ∈ s, p < nfa.size
  stays : ∀ p q, p ∈ s → nfa.HasEdge p .epsilon q → q ∈ s

theorem WellFormed.saturated_closure (wf : nfa.WellFormed) {seeds : List Nat}
    (hseeds : ∀ p ∈ seeds, p < nfa.size) : nfa.Saturated (nfa.closure seeds) where
  exist q hq := by
    obtain ⟨p, hp, hpath⟩ := (mem_closure_iff wf.targets_lt hseeds).mp hq
    exact hpath.lt_size wf.targets_lt (hseeds p hp)
  stays p q hp hedge := by
    obtain ⟨r, hr, hpath⟩ := (mem_closure_iff wf.targets_lt hseeds).mp hp
    exact (mem_closure_iff wf.targets_lt hseeds).mpr ⟨r, hr, hpath.trans (.skip hedge (.refl q))⟩

theorem WellFormed.moveOn_lt_size (wf : nfa.WellFormed) :
    ∀ q ∈ (nfa.moveOn s c).toList, q < nfa.size := by
  intro q hq
  obtain ⟨p, -, hedge⟩ := mem_moveOn_iff.mp hq
  exact wf.targets_lt p _ q hedge

theorem WellFormed.saturated_of_mem_subsetMoves (wf : nfa.WellFormed)
    (move : (c, t) ∈ nfa.subsetMoves s) : nfa.Saturated t := by
  obtain ⟨-, rfl⟩ := mem_subsetMoves_iff.mp move
  exact wf.saturated_closure wf.moveOn_lt_size

theorem WellFormed.saturated_startMembers (wf : nfa.WellFormed) :
    nfa.Saturated nfa.startMembers := by
  refine wf.saturated_closure fun p hp => ?_
  rw [List.mem_singleton.mp hp]
  exact wf.start_lt

theorem Saturated.mem_iff (h : nfa.Saturated s) {q : Nat} :
    q ∈ s ↔ ∃ p ∈ s, nfa.Path p [] q :=
  ⟨fun hq => ⟨q, hq, .refl q⟩, fun ⟨_, hp, hpath⟩ => hpath.stay h.stays rfl hp⟩

/-- **The first character of a path is a move.** -/
theorem Saturated.exists_path_cons_iff (wf : nfa.WellFormed) (h : nfa.Saturated s) {q : Nat} :
    (∃ p ∈ s, nfa.Path p (c :: w) q) ↔
      ∃ p ∈ nfa.closure (nfa.moveOn s c).toList, nfa.Path p w q := by
  constructor
  · rintro ⟨p, hp, hpath⟩
    obtain ⟨r, r', hnil, hedge, hrest⟩ := hpath.exists_edge rfl
    have hr : r ∈ s := h.mem_iff.mpr ⟨p, hp, hnil⟩
    exact ⟨r', (mem_closure_iff wf.targets_lt wf.moveOn_lt_size).mpr
      ⟨r', mem_moveOn_iff.mpr ⟨r, hr, hedge⟩, .refl r'⟩, hrest⟩
  · rintro ⟨r, hr, hrest⟩
    obtain ⟨r', hr', hnil⟩ := (mem_closure_iff wf.targets_lt wf.moveOn_lt_size).mp hr
    obtain ⟨p, hp, hedge⟩ := mem_moveOn_iff.mp hr'
    exact ⟨p, hp, .read hedge (hnil.trans hrest)⟩

/-! ## 3. Words -/

/-- **Moves on a word follow all paths with this word.** -/
theorem mem_of_follows (wf : nfa.WellFormed) (h : Follows nfa.subsetMoves s w t) :
    nfa.Saturated s → ∀ q, q ∈ t ↔ ∃ p ∈ s, nfa.Path p w q := by
  induction h with
  | nil s => exact fun saturated q => saturated.mem_iff
  | cons move _ ih =>
    intro saturated q
    rw [ih (wf.saturated_of_mem_subsetMoves move) q, saturated.exists_path_cons_iff wf]
    obtain ⟨-, rfl⟩ := mem_subsetMoves_iff.mp move
    rfl

/-- Moves never lead to the empty set. -/
theorem Built.nonempty_of_follows (built : nfa.Built) (h : Follows nfa.subsetMoves s w t) :
    (∃ p, p ∈ s) → ∃ q, q ∈ t := by
  induction h with
  | nil s => exact fun hs => hs
  | cons move _ ih =>
    refine fun _ => ih ?_
    obtain ⟨hc, rfl⟩ := mem_subsetMoves_iff.mp move
    obtain ⟨q, hq⟩ := built.mem_symbols_iff.mp hc
    exact ⟨q, (mem_closure_iff built.wellFormed.targets_lt built.wellFormed.moveOn_lt_size).mpr
      ⟨q, hq, .refl q⟩⟩

/-- If there is a path, there are moves. -/
theorem Built.exists_follows (built : nfa.Built) : ∀ {w : List Char} {s : Members},
    nfa.Saturated s → ∀ {q : Nat}, (∃ p ∈ s, nfa.Path p w q) → ∃ t, Follows nfa.subsetMoves s w t
  | [], s, _, _, _ => ⟨s, .nil s⟩
  | c :: w, s, saturated, q, hpath => by
    have wf := built.wellFormed
    obtain ⟨p, hp, hedge⟩ := (saturated.exists_path_cons_iff wf).mp hpath
    obtain ⟨r, hr, -⟩ := (mem_closure_iff wf.targets_lt wf.moveOn_lt_size).mp hp
    have move : (c, nfa.closure (nfa.moveOn s c).toList) ∈ nfa.subsetMoves s :=
      mem_subsetMoves_iff.mpr ⟨built.mem_symbols_iff.mpr ⟨r, hr⟩, rfl⟩
    obtain ⟨t, hfollows⟩ :=
      built.exists_follows (wf.saturated_of_mem_subsetMoves move) ⟨p, hp, hedge⟩
    exact ⟨t, .cons move hfollows⟩

theorem mem_startMembers_path_iff (wf : nfa.WellFormed) {q : Nat} :
    (∃ p ∈ nfa.startMembers, nfa.Path p w q) ↔ nfa.Path nfa.start w q := by
  have hstart : ∀ p ∈ [nfa.start], p < nfa.size := fun p hp =>
    List.mem_singleton.mp hp ▸ wf.start_lt
  constructor
  · rintro ⟨p, hp, hpath⟩
    obtain ⟨r, hr, hnil⟩ := (mem_closure_iff wf.targets_lt hstart).mp hp
    obtain rfl := List.mem_singleton.mp hr
    exact hnil.trans hpath
  · exact fun hpath => ⟨nfa.start,
      (mem_closure_iff wf.targets_lt hstart).mpr ⟨_, List.mem_cons_self, .refl _⟩, hpath⟩

/-! ## 4. The automaton -/

/-- **The exploration of an automaton ends.** -/
theorem WellFormed.sound_exploration (wf : nfa.WellFormed) :
    Sound nfa.subsetMoves nfa.startMembers (List.range nfa.size) nfa.exploration ∧
      Exploration.step nfa.subsetMoves nfa.exploration = none := by
  refine sound_run (fun s _ c t move x hx => ?_) (fun x hx => ?_) (Nat.le_of_eq List.length_range)
  · exact List.mem_range.mpr ((wf.saturated_of_mem_subsetMoves move).exist x hx)
  · exact List.mem_range.mpr (wf.saturated_startMembers.exist x hx)

theorem WellFormed.explored (wf : nfa.WellFormed) :
    Explored nfa.subsetMoves nfa.startMembers nfa.exploration :=
  wf.sound_exploration.1.explored (pending_eq_nil wf.sound_exploration.2)

theorem WellFormed.toDfa_run_iff (wf : nfa.WellFormed) {j : Nat} : nfa.toDfa.run w = some j ↔
    ∃ t, Follows nfa.subsetMoves nfa.startMembers w t ∧ nfa.exploration.found[j]? = some t :=
  wf.explored.run_iff subsetMoves_deterministic

/-- **The subset automaton of a built automaton is in the set of states that a word leads to**, if
there is any, and accepts if the accept state is among them.  Its construction ends. -/
theorem toDfa_tracks_paths (built : nfa.Built) (w : List Char) :
    ((∃ j, nfa.toDfa.run w = some j) ↔ ∃ q, nfa.Path nfa.start w q) ∧
    (∀ j, nfa.toDfa.run w = some j → ∃ state, nfa.toDfa.state? j = some state ∧
      (∀ q, q ∈ state.members ↔ nfa.Path nfa.start w q) ∧
      (nfa.toDfa.isAccepting j = true ↔ nfa.accept ∈ state.members)) ∧
    Exploration.step nfa.subsetMoves nfa.exploration = none := by
  have wf := built.wellFormed
  have hmembers : ∀ t, Follows nfa.subsetMoves nfa.startMembers w t →
      ∀ q, q ∈ t ↔ nfa.Path nfa.start w q := fun t hfollows q =>
    (mem_of_follows wf hfollows wf.saturated_startMembers q).trans (mem_startMembers_path_iff wf)
  refine ⟨⟨?_, ?_⟩, fun j hrun => ?_, wf.sound_exploration.2⟩
  · rintro ⟨j, hrun⟩
    obtain ⟨t, hfollows, -⟩ := wf.toDfa_run_iff.mp hrun
    have hstart : ∃ p, p ∈ nfa.startMembers := by
      obtain ⟨p, hp, -⟩ := (mem_startMembers_path_iff wf).mpr (.refl nfa.start)
      exact ⟨p, hp⟩
    obtain ⟨q, hq⟩ := built.nonempty_of_follows hfollows hstart
    exact ⟨q, (hmembers t hfollows q).mp hq⟩
  · rintro ⟨q, hpath⟩
    obtain ⟨t, hfollows⟩ := built.exists_follows wf.saturated_startMembers
      ((mem_startMembers_path_iff wf).mpr hpath)
    obtain ⟨j, hj⟩ := List.getElem?_of_mem
      (Follows.mem_found wf.explored hfollows (List.mem_of_getElem? wf.explored.begins))
    exact ⟨j, wf.toDfa_run_iff.mpr ⟨t, hfollows, hj⟩⟩
  · obtain ⟨t, hfollows, hj⟩ := wf.toDfa_run_iff.mp hrun
    refine ⟨⟨j, t, transitionsOf nfa.exploration.moves j⟩, ?_, hmembers t hfollows, ?_⟩
    · rw [toDfa, state?_toDfa, hj]
      rfl
    · refine (isAccepting_toDfa_iff nfa.exploration _ j).trans ?_
      simp only [hj, Option.some.injEq, decide_eq_true_eq, exists_eq_left']

/-- A cycle without input, an edge that is there twice, and a state that no edge leads to. -/
def tangle : Nfa :=
  ofEdges 4 0 2 [⟨0, .epsilon, 1⟩, ⟨1, .epsilon, 0⟩, ⟨1, .char 'a', 2⟩, ⟨1, .char 'a', 2⟩,
    ⟨2, .char 'b', 0⟩, ⟨3, .char 'b', 2⟩]

theorem built_tangle : tangle.Built :=
  built_ofEdges (by decide) (by decide) (by decide)

theorem toDfa_tracks_paths_tangle : tangle.Built ∧ tangle.toDfa.run ['a', 'b'] = some 0 ∧
    ∀ q, tangle.Path 0 ['a', 'b'] q ↔ q = 0 ∨ q = 1 := by
  have hrun : tangle.toDfa.run ['a', 'b'] = some 0 := by decide +kernel
  obtain ⟨-, htracks, -⟩ := toDfa_tracks_paths built_tangle ['a', 'b']
  obtain ⟨state, hstate, hmembers, -⟩ := htracks 0 hrun
  have hlist : (tangle.toDfa.state? 0).map (·.members.toList) = some [0, 1] := by decide +kernel
  rw [hstate] at hlist
  have hlist : state.members.toList = [0, 1] := Option.some.inj hlist
  refine ⟨built_tangle, hrun, fun q => (hmembers q).symm.trans ?_⟩
  rw [OrderedSet.mem_def, hlist]
  simp

end Nfa

end FormalLang
