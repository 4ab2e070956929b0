import FormalLang.Proofs.Automaton.Discovery
import FormalLang.Proofs.Automaton.Replay
import FormalLang.Proofs.Conversion.Trim

/-!
# The steps of a conversion tell its automata

Each conversion records its steps apart from what it builds.  Still nothing is lost: the automata
can be built again from the steps (`steps_tell_automata`).

**Thompson's automaton** is built by the steps between the listing and the start set, one for each
entry of the listing (`rebuild_fragment`).

**The deterministic automaton** is told by the steps from the start set on.  A set has one move at
most for each character, so that no transition is recorded twice, and the states are met in the
order of their numbers (`Exploration.Explored.toldBy`).
-/

namespace FormalLang

/-! ## 1. One move for each character -/

theorem Nfa.nodup_subsetMoves (nfa : Nfa) (s : Members) :
    ((nfa.subsetMoves s).map Prod.fst).Nodup := by
  rw [subsetMoves, List.map_map]
  exact (List.map_id _).symm ▸ (nfa.symbols s).nodup

theorem SyntaxTree.nodup_positionMoves (tree : SyntaxTree) (s : Members) :
    ((tree.positionMoves s).map Prod.fst).Nodup :=
  (s.toList.foldl tree.addMoves ∅).nodup_keys

/-- **The moves of the subset construction tell the subset automaton.** -/
theorem Nfa.WellFormed.toldBy_toDfa {nfa : Nfa} (wf : nfa.WellFormed) :
    nfa.toDfa.ToldBy nfa.startMembers nfa.exploration.moves :=
  wf.explored.toldBy (Exploration.orderly_run nfa.nodup_subsetMoves _ _)
    subsetMoves_deterministic _

/-- **The moves of the followpos construction tell the followpos automaton.** -/
theorem SyntaxTree.toldBy_toDfa (e : Regex) :
    (ofRegex e).toDfa.ToldBy (e.number 1).firstpos (ofRegex e).exploration.moves :=
  (explored_exploration e).toldBy
    (Exploration.orderly_run (ofRegex e).nodup_positionMoves _ _) positionMoves_unique _

/-! ## 2. Trees -/

/-- Whether a step is about a syntax tree. -/
def Step.GrowsTree : Step → Prop
  | .leaf _ _ | .treeConcat _ _ | .treeUnion _ _ | .treeStar _ | .properties _ _ _
  | .followpos _ _ => True
  | _ => False

theorem Step.growsTree_snoc {earlier : List Step} {last : Step}
    (h : ∀ step ∈ earlier, step.GrowsTree) (hlast : last.GrowsTree) :
    ∀ step ∈ earlier ++ [last], step.GrowsTree :=
  List.forall_mem_append.mpr ⟨h, List.forall_mem_singleton.mpr hlast⟩

theorem PositionTree.growsTree_steps : ∀ t : PositionTree, ∀ step ∈ t.steps, step.GrowsTree
  | .leaf _ _ => List.forall_mem_singleton.mpr trivial
  | .concat l r => Step.growsTree_snoc
      (List.forall_mem_append.mpr ⟨l.growsTree_steps, r.growsTree_steps⟩) trivial
  | .union l r => Step.growsTree_snoc
      (List.forall_mem_append.mpr ⟨l.growsTree_steps, r.growsTree_steps⟩) trivial
  | .star e => Step.growsTree_snoc e.growsTree_steps trivial

theorem SyntaxTree.growsTree_steps (tree : SyntaxTree) :
    ∀ step ∈ tree.steps, step.GrowsTree := by
  refine List.forall_mem_append.mpr ⟨Step.growsTree_snoc tree.shape.growsTree_steps trivial, ?_⟩
  intro step hstep
  obtain ⟨p, -, rfl⟩ := List.mem_map.mp hstep
  trivial

/-! ## 3. Texts -/

/-- **The steps of both conversions tell their automata.**

By way of Thompson's construction, the listing is recorded first, then one step for each of its
entries, in its order, and then the start set and the moves.  The steps for the entries, replayed on
a stack of the parts that they make, build Thompson's automaton again, with the same states, the
same transitions in the same order and the same ends.

By way of the syntax tree, the listing is recorded first, then the steps of the tree, the start set
and the moves.  Last come the accepting states in ascending order.

In both, the moves tell the deterministic automaton.  The start set is that of state zero.  Every
transition is one of the moves, and is there once, and every move is a transition and carries the
members of its target.  A move begins at state zero or where an earlier one has led, and the states
are met in the order of their numbers. -/
theorem steps_tell_automata (cs : List Char) :
    (∀ c, thompson cs = .ok c → ∃ made start moves,
      c.steps = .listing c.listing.text false :: made ++ .dfaStart start :: moves.map .dfaMove ∧
      List.Forall₂ Records (c.listing.items.map Item.entry) made ∧
      rebuild made = some c.nfa ∧ c.dfa.ToldBy start moves) ∧
    ∀ c, syntaxTree cs = .ok c → ∃ start moves accepting,
      c.steps = .listing c.listing.text true :: c.tree.steps ++
        .dfaStart start :: moves.map .dfaMove ++ [.acceptStates accepting] ∧
      (∀ step ∈ c.tree.steps, step.GrowsTree) ∧ c.dfa.ToldBy start moves ∧
      accepting.Pairwise (· < ·) ∧ ∀ id, id ∈ accepting ↔ c.dfa.isAccepting id = true := by
  refine ⟨fun c hc => ?_, fun c hc => ?_⟩
  · obtain ⟨listing, hlisting, rfl⟩ := exists_listing_of_thompson hc
    have hrecords := listing.expression.records_fragment 0
    rw [← (Postfix.expresses_of_ofText hlisting).2] at hrecords
    exact ⟨_, _, _, rfl, hrecords, rebuild_fragment listing.expression,
      listing.expression.built_toNfa.wellFormed.toldBy_toDfa⟩
  · obtain ⟨listing, -, rfl⟩ := exists_listing_of_syntaxTree hc
    refine ⟨_, _, _, rfl, SyntaxTree.growsTree_steps _,
      SyntaxTree.toldBy_toDfa listing.expression, ?_, fun id => ?_⟩
    · exact (OrderedSet.ascending _).imp of_decide_eq_true
    · exact decide_eq_true_iff.symm

/-- A start set and moves are read off the steps that record them. -/
theorem dfaSteps_inj {start start' : Members} {moves moves' : List Move}
    (h : Step.dfaStart start :: moves.map .dfaMove = .dfaStart start' :: moves'.map .dfaMove) :
    start = start' ∧ moves = moves' := by
  obtain ⟨hstart, hmoves⟩ := List.cons.inj h
  exact ⟨Step.dfaStart.inj hstart,
    List.map_injective_iff.mpr (fun _ _ => Step.dfaMove.inj) hmoves⟩

/-- In `a*b`, state 2 is found last and explored before state 1. -/
theorem steps_tell_automata_repeated :
    thompson "a*b".toList = .ok (.ofPostfix repeatedListing) ∧
    rebuild [.symbol (.char 'a') 0 1, .star 2 3, .symbol (.char 'b') 4 5, .concat 3 4] =
      some (ThompsonConversion.ofPostfix repeatedListing).nfa ∧
    (ThompsonConversion.ofPostfix repeatedListing).dfa.ToldBy (.ofList [0, 2, 3, 4])
      [⟨0, 'a', 1, .ofList [0, 1, 3, 4]⟩, ⟨0, 'b', 2, .ofList [5]⟩,
        ⟨1, 'a', 1, .ofList [0, 1, 3, 4]⟩, ⟨1, 'b', 2, .ofList [5]⟩] ∧
    syntaxTree "a*b".toList = .ok (.ofPostfix augmentedRepeatedListing) ∧
    (SyntaxTreeConversion.ofPostfix augmentedRepeatedListing).dfa.ToldBy (.ofList [1, 2])
      [⟨0, 'a', 0, .ofList [1, 2]⟩, ⟨0, 'b', 1, .ofList [3]⟩] ∧
    ∀ id, (SyntaxTreeConversion.ofPostfix augmentedRepeatedListing).dfa.isAccepting id = true ↔
      id = 1 := by
  obtain ⟨made, start, moves, hsteps, hrecords, hrebuild, htold⟩ :=
    (steps_tell_automata "a*b".toList).1 _ thompson_repeated
  have hlist : (ThompsonConversion.ofPostfix repeatedListing).steps =
      .listing "a*b." false ::
        [.symbol (.char 'a') 0 1, .star 2 3, .symbol (.char 'b') 4 5, .concat 3 4] ++
        .dfaStart (.ofList [0, 2, 3, 4]) :: List.map .dfaMove
          [⟨0, 'a', 1, .ofList [0, 1, 3, 4]⟩, ⟨0, 'b', 2, .ofList [5]⟩,
            ⟨1, 'a', 1, .ofList [0, 1, 3, 4]⟩, ⟨1, 'b', 2, .ofList [5]⟩] := by
    decide +kernel
  obtain ⟨hmade, hmoves⟩ := List.append_inj (hlist.symm.trans hsteps)
    (congrArg Nat.succ hrecords.length_eq)
  obtain rfl := (List.cons.inj hmade).2
  obtain ⟨rfl, rfl⟩ := dfaSteps_inj hmoves
  obtain ⟨start, moves, accepting, hsteps', -, htold', -, haccepting⟩ :=
    (steps_tell_automata "a*b".toList).2 _ syntaxTree_repeated
  have hlist' : (SyntaxTreeConversion.ofPostfix augmentedRepeatedListing).steps =
      .listing "a*b.#." true ::
        (SyntaxTreeConversion.ofPostfix augmentedRepeatedListing).tree.steps ++
        .dfaStart (.ofList [1, 2]) :: List.map .dfaMove
          [⟨0, 'a', 0, .ofList [1, 2]⟩, ⟨0, 'b', 1, .ofList [3]⟩] ++ [.acceptStates [1]] := by
    decide +kernel
  obtain ⟨hfirst, hlast⟩ := List.append_inj' (hlist'.symm.trans hsteps') rfl
  obtain ⟨-, hmoves'⟩ := List.append_inj hfirst rfl
  obtain ⟨rfl, rfl⟩ := dfaSteps_inj hmoves'
  obtain rfl := Step.acceptStates.inj (List.singleton_inj.mp hlast)
  exact ⟨thompson_repeated, hrebuild, htold, syntaxTree_repeated, htold',
    fun id => (haccepting id).symm.trans List.mem_singleton⟩

end FormalLang
