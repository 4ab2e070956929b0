import FormalLang.Proofs.Automaton.Interning
import FormalLang.Proofs.Automaton.Subset

/-!
# The subset construction looks up states that exist

Closures, moves and symbols ask for states by their number.  Here each of these questions can fail,
and the subset construction asks all of them.  In an automaton that is in order none does: targets
exist, so that whatever a closure follows and whatever the members of a state are exists too
(`Nfa.WellFormed.determinize_eq`).
-/

namespace FormalLang.Nfa

/-! ## 1. Looking up states -/

/-- The state with a number, which has to exist. -/
def lookUp (nfa : Nfa) (id : Nat) : Except Lapse State := (nfa.getState id).mapError .fault

/-- Follows the edges without input out of the last pending state. -/
def Search.tryStep (nfa : Nfa) (s : Search) : Except Lapse (Option Search) :=
  match s.pending with
  | [] => .ok none
  | id :: rest => do
    let state ← nfa.lookUp id
    return some ((state.targets .epsilon).foldl note ⟨s.seen, rest⟩)

/-- The states reached from the seeds by edges without input. -/
def lookUpClosure (nfa : Nfa) (seeds : List Nat) : Except Lapse (OrderedSet Nat) := do
  let s ← iterateE (Search.tryStep nfa) (seeds.length + nfa.size + 1)
    ⟨OrderedSet.ofList seeds, seeds.reverse⟩
  return s.seen

/-- Adds to a set what some states have to offer. -/
def lookUpAll {α : Type} [Ordered α] (nfa : Nfa) (offer : State → List α) :
    OrderedSet α → List Nat → Except Lapse (OrderedSet α)
  | found, [] => .ok found
  | found, id :: rest => do
    let state ← nfa.lookUp id
    nfa.lookUpAll offer (found ∪ OrderedSet.ofList (offer state)) rest

/-- The states reached from a set of states by one edge labelled with a character. -/
def lookUpMove (nfa : Nfa) (states : OrderedSet Nat) (c : Char) : Except Lapse (OrderedSet Nat) :=
  nfa.lookUpAll (fun s => s.targets (.char c)) ∅ states.toList

/-- The characters with an edge out of a set of states. -/
def lookUpSymbols (nfa : Nfa) (states : OrderedSet Nat) : Except Lapse (OrderedSet Char) :=
  nfa.lookUpAll (fun s => s.transitions.keys.filterMap Label.char?) ∅ states.toList

/-- The moves out of a set of states on some characters. -/
def lookUpMoves (nfa : Nfa) (members : Members) :
    List Char → Except Lapse (List (Char × Members))
  | [] => .ok []
  | c :: rest => do
    let moved ← nfa.lookUpMove members c
    let target ← nfa.lookUpClosure moved.toList
    let later ← nfa.lookUpMoves members rest
    return (c, target) :: later

/-- The moves out of a set of states. -/
def trySubsetMoves (nfa : Nfa) (members : Members) : Except Lapse (List (Char × Members)) := do
  let symbols ← nfa.lookUpSymbols members
  nfa.lookUpMoves members symbols.toList

/-- The subset automaton, and the steps that build it. -/
def determinize (nfa : Nfa) : Except Lapse (Dfa × List Step) := do
  let start ← nfa.lookUpClosure [nfa.start]
  DfaBuilder.explore nfa.trySubsetMoves nfa.size start fun members => decide (nfa.accept ∈ members)

/-! ## 2. Nothing is missing -/

variable {nfa : Nfa}

theorem exists_lookUp {id : Nat} (h : id < nfa.size) :
    ∃ s, nfa.states[id]? = some s ∧ nfa.lookUp id = .ok s := by
  have hs : nfa.states[id]? = some nfa.states[id] := List.getElem?_eq_getElem h
  exact ⟨_, hs, by rw [lookUp, getState, hs]; rfl⟩

/-- A round of the search of a closure looks up a state that exists. -/
theorem Search.Sound.tryStep_eq {seeds : List Nat} {s : Search} (h : Sound nfa seeds s) :
    Search.tryStep nfa s = .ok (Search.step nfa s) := by
  obtain ⟨seen, pending⟩ := s
  cases pending with
  | nil => rfl
  | cons id rest =>
    obtain ⟨s, hs, hlookUp⟩ := exists_lookUp (h.exist id (h.waiting id List.mem_cons_self))
    simp only [Search.tryStep, Search.step, hlookUp, targets, hs]
    rfl

/-- **The search of a closure follows existing states only.** -/
theorem Search.iterateE_tryStep_eq
    (targets_lt : ∀ p label q, nfa.HasEdge p label q → q < nfa.size) {seeds : List Nat}
    (hseeds : ∀ p ∈ seeds, p < nfa.size) (n : Nat) :
    iterateE (Search.tryStep nfa) n ⟨OrderedSet.ofList seeds, seeds.reverse⟩ =
      .ok (iterate (Search.step nfa) n ⟨OrderedSet.ofList seeds, seeds.reverse⟩) :=
  iterateE_eq_ok (P := Sound nfa seeds)
    (fun _ h => ⟨h.tryStep_eq, fun _ hs => (h.step targets_lt hs).1⟩) n _ (sound_start hseeds)

theorem WellFormed.lookUpClosure_eq (wf : nfa.WellFormed) {seeds : List Nat}
    (hseeds : ∀ p ∈ seeds, p < nfa.size) :
    nfa.lookUpClosure seeds = .ok (nfa.closure seeds) := by
  rw [lookUpClosure, Search.iterateE_tryStep_eq wf.targets_lt hseeds]
  rfl

theorem lookUpAll_eq {α : Type} [Ordered α] {offer : State → List α} {offers : Nat → List α}
    (hoffers : ∀ id s, nfa.states[id]? = some s → offers id = offer s) :
    ∀ {ids : List Nat} {found : OrderedSet α}, (∀ id ∈ ids, id < nfa.size) →
      nfa.lookUpAll offer found ids =
        .ok (ids.foldl (fun found id => found ∪ OrderedSet.ofList (offers id)) found)
  | [], found, _ => rfl
  | id :: ids, found, h => by
    obtain ⟨s, hs, hlookUp⟩ := exists_lookUp (h id List.mem_cons_self)
    rw [lookUpAll, hlookUp, List.foldl_cons, hoffers id s hs]
    exact lookUpAll_eq hoffers fun id' hid' => h id' (List.mem_cons_of_mem _ hid')

variable {members : Members}

theorem lookUpMove_eq (h : ∀ p ∈ members, p < nfa.size) (c : Char) :
    nfa.lookUpMove members c = .ok (nfa.moveOn members c) :=
  lookUpAll_eq (fun id s hs => by rw [targets, hs]) h

theorem lookUpSymbols_eq (h : ∀ p ∈ members, p < nfa.size) :
    nfa.lookUpSymbols members = .ok (nfa.symbols members) :=
  lookUpAll_eq (fun id s hs => by rw [symbolsOf, hs]) h

theorem WellFormed.lookUpMoves_eq (wf : nfa.WellFormed) (h : ∀ p ∈ members, p < nfa.size) :
    ∀ cs : List Char, nfa.lookUpMoves members cs =
      .ok (cs.map fun c => (c, nfa.closure (nfa.moveOn members c).toList))
  | [] => rfl
  | c :: cs => by
    rw [lookUpMoves, lookUpMove_eq h]
    simp only [bind, Except.bind, wf.lookUpClosure_eq wf.moveOn_lt_size, wf.lookUpMoves_eq h cs]
    rfl

/-- **The moves out of existing states** ask for existing states only. -/
theorem WellFormed.trySubsetMoves_eq (wf : nfa.WellFormed) (h : ∀ p ∈ members, p < nfa.size) :
    nfa.trySubsetMoves members = .ok (nfa.subsetMoves members) := by
  rw [trySubsetMoves, lookUpSymbols_eq h]
  exact wf.lookUpMoves_eq h _

/-- **The subset construction has no lapse** on an automaton in order, and it builds the subset
automaton. -/
theorem WellFormed.determinize_eq (wf : nfa.WellFormed) :
    nfa.determinize = .ok (nfa.toDfa, nfa.exploration.steps nfa.startMembers) := by
  have hstart : nfa.lookUpClosure [nfa.start] = .ok nfa.startMembers :=
    wf.lookUpClosure_eq fun p hp => List.mem_singleton.mp hp ▸ wf.start_lt
  have hcomputed : ∀ s : Members, (∀ x ∈ s, x ∈ List.range nfa.size) →
      nfa.trySubsetMoves s = .ok (nfa.subsetMoves s) :=
    fun s hs => wf.trySubsetMoves_eq fun p hp => List.mem_range.mp (hs p hp)
  have hclosed : ∀ s : Members, (∀ x ∈ s, x ∈ List.range nfa.size) → ∀ c t,
      (c, t) ∈ nfa.subsetMoves s → ∀ x ∈ t, x ∈ List.range nfa.size :=
    fun s _ c t move x hx => List.mem_range.mpr ((wf.saturated_of_mem_subsetMoves move).exist x hx)
  have hbegin : ∀ x ∈ nfa.startMembers, x ∈ List.range nfa.size :=
    fun x hx => List.mem_range.mpr (wf.saturated_startMembers.exist x hx)
  rw [determinize, hstart]
  exact Exploration.explore_eq subsetMoves_deterministic hcomputed hclosed hbegin
    (Nat.le_of_eq List.length_range) _

end FormalLang.Nfa
