import FormalLang.Conversion
import FormalLang.Json

/-!
# Automata and trees as structured values

The fields stand in the order in which they are written.  Maps with numbers or characters as keys
become objects whose fields ascend by key.
-/

namespace FormalLang

/-- A character as a value. -/
def Json.char (c : Char) : Json := .text (String.ofList [c])

/-- A set of numbers as a value. -/
def Json.members (s : OrderedSet Nat) : Json := .numbers s.toList

namespace Nfa

/-- A state and its transitions, grouped by label. -/
def State.toJson (s : State) : Json :=
  .object [("id", .number s.id), ("transitions", .object (s.transitions.toList.map fun p =>
    (String.ofList [p.1.toChar], .numbers p.2)))]

/-- A nondeterministic automaton. -/
def toJson (nfa : Nfa) : Json :=
  .object [("start", .number nfa.start), ("accept", .number nfa.accept),
    ("states", .list (nfa.states.map State.toJson))]

end Nfa

namespace Dfa

/-- The transitions of a state, by character. -/
def State.transitionsJson (s : State) : Json :=
  .object (s.transitions.toList.map fun p => (String.ofList [p.1], .number p.2))

/-- A deterministic automaton.  States without transitions have no field among them. -/
def toJson (dfa : Dfa) : Json :=
  .object [
    ("states", .numbers (dfa.states.map State.id)),
    ("transitions", .object ((dfa.states.filter fun s => !s.transitions.isEmpty).map fun s =>
      (toString s.id, s.transitionsJson))),
    ("start", .number dfa.start),
    ("accept", .members dfa.accept),
    ("members", .object (dfa.states.map fun s => (toString s.id, .members s.members)))]

end Dfa

/-- A node with its attributes; what a node does not have is null. -/
def Node.toJson (node : Node) : Json :=
  .object [
    ("id", .number node.id),
    ("type", .text node.kind.name),
    ("symbol", .char node.kind.toChar),
    ("position", .optional .number node.kind.position?),
    ("left", .optional .number node.kind.left?),
    ("right", .optional .number node.kind.right?),
    ("nullable", .bool node.nullable),
    ("firstpos", .members node.firstpos),
    ("lastpos", .members node.lastpos)]

/-- A syntax tree. -/
def SyntaxTree.toJson (tree : SyntaxTree) : Json :=
  .object [
    ("nodes", .list (tree.nodes.map Node.toJson)),
    ("root", .number tree.root),
    ("followpos", .object (tree.follow.toList.map fun p => (toString p.1, .members p.2))),
    ("end_position", .number tree.endPosition)]

/-- The lines of a list of steps. -/
def Step.listJson (steps : List Step) : Json := .texts (steps.map Step.text)

/-- The result of Thompson's construction. -/
def ThompsonConversion.toJson (c : ThompsonConversion) : Json :=
  .object [("postfix", .text c.listing.text), ("nfa", c.nfa.toJson), ("dfa", c.dfa.toJson),
    ("steps", Step.listJson c.steps)]

/-- The result of the followpos construction. -/
def SyntaxTreeConversion.toJson (c : SyntaxTreeConversion) : Json :=
  .object [("postfix", .text c.listing.text), ("tree", c.tree.toJson), ("dfa", c.dfa.toJson),
    ("steps", Step.listJson c.steps)]

end FormalLang
