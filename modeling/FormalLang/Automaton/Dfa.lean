import FormalLang.Automaton.Step

/-!
# Deterministic automata

Every state stands for a set of members: states of another automaton, or positions of an expression.
Two states are the same exactly if their members are.  A state without a transition on a character
has no move there.
-/

namespace FormalLang

/-- A state of a deterministic automaton. -/
structure Dfa.State where
  id : Nat
  members : OrderedSet Nat
  transitions : OrderedMap Char Nat
  deriving DecidableEq

/-- **A deterministic automaton** with a partial transition function. -/
structure Dfa where
  start : Nat
  states : List Dfa.State
  accept : OrderedSet Nat
  deriving DecidableEq

namespace Dfa

/-- The number of states. -/
def size (dfa : Dfa) : Nat := dfa.states.length

/-- Whether a state accepts. -/
def isAccepting (dfa : Dfa) (id : Nat) : Bool := decide (id ∈ dfa.accept)

/-- The state with a number. -/
def state? (dfa : Dfa) (id : Nat) : Option State := dfa.states[id]?

/-- The target of a state's transition on a character. -/
def transition? (dfa : Dfa) (id : Nat) (c : Char) : Option Nat :=
  match dfa.state? id with
  | none => none
  | some s => s.transitions.find? c

/-- The state with exactly these members. -/
def findState? (dfa : Dfa) (members : OrderedSet Nat) : Option Nat :=
  (dfa.states.find? fun s => decide (s.members = members)).map State.id

/-- The characters on the transitions. -/
def symbols (dfa : Dfa) : OrderedSet Char :=
  OrderedSet.unionOf (fun s => OrderedSet.ofList s.transitions.keys) dfa.states

/-- The state reached from a state by a word, if no transition is missing on the way. -/
def runFrom (dfa : Dfa) : Option Nat → List Char → Option Nat
  | state, [] => state
  | none, _ :: _ => none
  | some id, c :: cs => dfa.runFrom (dfa.transition? id c) cs

/-- The states after each character of a word. -/
def trail (dfa : Dfa) : Option Nat → List Char → List (Option Nat)
  | _, [] => []
  | state, c :: cs =>
    let next := state.bind fun id => dfa.transition? id c
    next :: dfa.trail next cs

/-- The state reached from the start by a word. -/
def run (dfa : Dfa) (w : List Char) : Option Nat := dfa.runFrom (some dfa.start) w

/-- Whether a word leads from the start to an accepting state. -/
def accepts (dfa : Dfa) (w : List Char) : Bool := (dfa.run w).any dfa.isAccepting

end Dfa

end FormalLang
