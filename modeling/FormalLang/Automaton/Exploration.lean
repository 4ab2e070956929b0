import FormalLang.Automaton.Dfa

/-!
# Exploring sets of members

Both ways to a deterministic automaton explore sets of members: from a start set, each set has moves
to other sets, and every set that is found becomes a state.  A set found twice is one state.

**Order.**  States are numbered as they are found.  The state found last is explored first, and its
moves are taken in the order in which they are given.  A universe of `n` members has `2 ^ n` sets,
and each is explored once, which bounds the rounds.
-/

namespace FormalLang

/-- A set of members, which becomes a state. -/
abbrev Members := OrderedSet Nat

/-- **An exploration in progress.** -/
structure Exploration where
  /-- The sets found so far; the place of a set is its number. -/
  found : List Members
  /-- The numbers of the sets that are still to be explored, the last found one first. -/
  pending : List Nat
  /-- The moves found so far, in order. -/
  moves : List Move

namespace Exploration

/-- Takes note of a move, and of its target if that is new. -/
def note (source : Nat) (e : Exploration) (arrow : Char × Members) : Exploration :=
  match e.found.idxOf? arrow.2 with
  | some id => { e with moves := e.moves ++ [⟨source, arrow.1, id, arrow.2⟩] }
  | none =>
    let id := e.found.length
    ⟨e.found ++ [arrow.2], id :: e.pending, e.moves ++ [⟨source, arrow.1, id, arrow.2⟩]⟩

/-- Explores the pending set that was found last. -/
def step (next : Members → List (Char × Members)) (e : Exploration) : Option Exploration :=
  match e.pending with
  | [] => none
  | id :: rest =>
    match e.found[id]? with
    | none => some { e with pending := rest }
    | some members => some ((next members).foldl (note id) { e with pending := rest })

/-- The exploration that has found its start only. -/
def begin (start : Members) : Exploration := ⟨[start], [0], []⟩

/-- The exploration of a universe with so many members. -/
def run (next : Members → List (Char × Members)) (members : Nat) (start : Members) :
    Exploration :=
  iterate (step next) (Nat.pow 2 members + 1) (begin start)

/-- The transitions of a state, out of all moves. -/
def transitionsOf (moves : List Move) (id : Nat) : OrderedMap Char Nat :=
  (moves.filter fun m => m.source = id).foldl (fun t m => t.insert m.symbol m.target) ∅

/-- The automaton of an exploration; a state accepts if its members pass a test. -/
def toDfa (e : Exploration) (accepting : Members → Bool) : Dfa where
  start := 0
  states := e.found.mapIdx fun id members => ⟨id, members, transitionsOf e.moves id⟩
  accept := OrderedSet.ofList ((List.range e.found.length).filter fun id =>
    (e.found[id]?).any accepting)

/-- The steps of an exploration: the start set, then every move. -/
def steps (e : Exploration) (start : Members) : List Step :=
  .dfaStart start :: e.moves.map .dfaMove

end Exploration

end FormalLang
