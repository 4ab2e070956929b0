import FormalLang.Automaton.Dfa
import FormalLang.Position.SyntaxTree

/-!
# Drawings in the dot language

An automaton is drawn from left to right, with its accepting states as double circles and an
unlabelled point in front of the start state.  A syntax tree is drawn with its leaves as boxes that
show the symbol and the position.
-/

namespace FormalLang

/-- Lines that begin with a tabulator, separated by line breaks. -/
def Text.tabbed (lines : List String) : String :=
  Text.joinWith "\n" (lines.map fun line => "\t" ++ line)

/-- The drawing of an automaton, given the names of its states and the lines of its edges. -/
def digraph (name start : String) (accept edges : List String) : String :=
  "digraph " ++ name ++ " \x7b\n" ++
    "\trankdir = LR;\n" ++
    "\n" ++
    "\t// final states\n" ++
    "\tnode [shape = doublecircle]; " ++ Text.joinWith " " accept ++ ";\n" ++
    "\tnode [shape = circle];\n" ++
    "\t__start [shape = point];\n" ++
    "\t__start -> " ++ start ++ ";\n" ++
    "\n" ++
    Text.tabbed edges ++ "\n\x7d"

/-- The line of an edge between two named states. -/
def edgeLine (source target : String) (c : Char) : String :=
  source ++ " -> " ++ target ++ " [label = \"" ++ String.ofList [c] ++ "\"];"

/-- The name that a state of a deterministic automaton is drawn with. -/
def Dfa.stateName (id : Nat) : String := "S" ++ toString id

/-- The drawing of a nondeterministic automaton. -/
def Nfa.toDot (nfa : Nfa) : String :=
  digraph "nfa" (toString nfa.start) [toString nfa.accept]
    (nfa.states.flatMap fun s => s.transitions.toList.flatMap fun p =>
      p.2.map fun target => edgeLine (toString s.id) (toString target) p.1.toChar)

/-- The drawing of a deterministic automaton. -/
def Dfa.toDot (dfa : Dfa) : String :=
  digraph "dfa" (stateName dfa.start) (dfa.accept.toList.map stateName)
    (dfa.states.flatMap fun s => s.transitions.toList.map fun p =>
      edgeLine (stateName s.id) (stateName p.2) p.1)

/-- The line that draws a node. -/
def Node.dotLine (node : Node) : String :=
  "n" ++ toString node.id ++ " [label = \"" ++ String.ofList [node.kind.toChar] ++
    match node.kind.position? with
    | some p => "\\n" ++ toString p ++ "\", shape = box];"
    | none => "\"];"

/-- The lines that draw the edges to the children of a node. -/
def Node.dotEdges (node : Node) : List String :=
  (node.kind.left?.toList ++ node.kind.right?.toList).map fun child =>
    "n" ++ toString node.id ++ " -> n" ++ toString child ++ ";"

/-- The drawing of a syntax tree. -/
def SyntaxTree.toDot (tree : SyntaxTree) : String :=
  "digraph syntax_tree \x7b\n" ++
    "\tnode [shape = circle];\n" ++
    "\n" ++
    Text.tabbed (tree.nodes.map Node.dotLine ++ tree.nodes.flatMap Node.dotEdges) ++ "\n\x7d"

end FormalLang
