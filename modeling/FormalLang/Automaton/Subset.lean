import FormalLang.Automaton.Exploration

/-!
# The subset construction

The members of a state are the states in which a nondeterministic automaton can be after reading a
word: the closure of its start state, and from there the closure of each move.
-/

namespace FormalLang

namespace Nfa

/-- The members of the start state. -/
def startMembers (nfa : Nfa) : Members := nfa.closure [nfa.start]

/-- The moves out of a set of states, one for each character that has an edge there. -/
def subsetMoves (nfa : Nfa) (members : Members) : List (Char × Members) :=
  (nfa.symbols members).toList.map fun c => (c, nfa.closure (nfa.moveOn members c).toList)

/-- The exploration of the sets of states. -/
def exploration (nfa : Nfa) : Exploration :=
  .run nfa.subsetMoves nfa.size nfa.startMembers

/-- **The subset automaton.**  A state accepts if it has the accept state among its members. -/
def toDfa (nfa : Nfa) : Dfa :=
  nfa.exploration.toDfa fun members => decide (nfa.accept ∈ members)

end Nfa

end FormalLang
