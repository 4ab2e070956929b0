/-!
# Questions about things that are not there

A state, a node or a variable is asked for by its number or name.  Asking for one that does not
exist is a fault of the question and not a property of the automaton, the tree or the grammar, so
it has a type of its own.
-/

namespace FormalLang

/-- What was asked for although it does not exist. -/
inductive Fault where
  /-- A state of an automaton. -/
  | missingState
  /-- A node of a tree. -/
  | missingNode
  /-- A variable of a grammar. -/
  | missingVariable
  /-- The FIRST or FOLLOW set of a variable. -/
  | missingSets
  deriving DecidableEq

/-- The wording of a fault. -/
def Fault.message : Fault → String
  | .missingState => "requested state does not exist"
  | .missingNode => "requested node does not exist"
  | .missingVariable => "variable does not exist in the grammar"
  | .missingSets => "sets exist for every variable"

end FormalLang
