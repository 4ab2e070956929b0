import FormalLang.Report.Automaton
import FormalLang.Report.Dot

/-!
# The report on a regular expression

A report shows the constructions that ran, as text, as drawings or as a structured value.
-/

namespace FormalLang

/-- The constructions that a report shows. -/
structure RegexReport where
  thompson : Option ThompsonConversion
  syntaxTree : Option SyntaxTreeConversion

/-- Which constructions to run. -/
inductive RegexMethod where
  | thompson
  | syntaxTree
  | both
  /-- No construction; the report is empty. -/
  | neither
  deriving DecidableEq

namespace RegexMethod

/-- Whether Thompson's construction runs. -/
def runsThompson : RegexMethod → Bool
  | .thompson | .both => true
  | _ => false

/-- Whether the followpos construction runs. -/
def runsSyntaxTree : RegexMethod → Bool
  | .syntaxTree | .both => true
  | _ => false

end RegexMethod

/-! ## 1. Tables -/

/-- The line of a state of a nondeterministic automaton; a state without transitions has none. -/
def Nfa.State.tableLine? (s : Nfa.State) : Option String :=
  if s.transitions.isEmpty then none
  else some ("  " ++ toString s.id ++ ": " ++ Text.joinWith "; " (s.transitions.toList.map fun p =>
    String.ofList [p.1.toChar] ++ " -> " ++ Text.spacedList p.2))

/-- The lines of a nondeterministic automaton. -/
def Nfa.tableLines (nfa : Nfa) : List String :=
  ("NFA: " ++ toString nfa.size ++ " states, start " ++ toString nfa.start ++ ", accept " ++
      toString nfa.accept) ::
    nfa.states.filterMap Nfa.State.tableLine?

/-- The line of a state of a deterministic automaton. -/
def Dfa.State.tableLine (s : Dfa.State) : String :=
  "  S" ++ toString s.id ++ " " ++ Step.memberText s.members ++ ": " ++
    Text.joinWith ", " (s.transitions.toList.map fun p =>
      String.ofList [p.1] ++ " -> S" ++ toString p.2)

/-- The lines of a deterministic automaton. -/
def Dfa.tableLines (dfa : Dfa) : List String :=
  ("DFA: " ++ toString dfa.size ++ " states, start " ++ stateName dfa.start ++ ", accept " ++
      Text.joinWith " " (dfa.accept.toList.map stateName)) ::
    dfa.states.map Dfa.State.tableLine

/-- The lines of the table of following positions. -/
def SyntaxTree.tableLines (tree : SyntaxTree) : List String :=
  "Followpos:" :: tree.follow.toList.map fun p =>
    "  " ++ toString p.1 ++ " " ++
      String.ofList [((tree.symbolAt? p.1).map Leaf.toChar).getD '?'] ++ ": " ++
      Step.memberText p.2

/-! ## 2. The report -/

namespace RegexReport

/-- The report of the chosen constructions on a text. -/
def ofText (method : RegexMethod) (cs : List Char) : Except RegexError RegexReport :=
  let first := if method.runsThompson then (FormalLang.thompson cs).map some else .ok none
  match first with
  | .error e => .error e
  | .ok thompson =>
    let second := if method.runsSyntaxTree then (FormalLang.syntaxTree cs).map some else .ok none
    match second with
    | .error e => .error e
    | .ok syntaxTree => .ok ⟨thompson, syntaxTree⟩

/-- The lines on Thompson's construction. -/
def thompsonLines (c : ThompsonConversion) : List String :=
  "== Thompson's construction ==" :: c.steps.map Step.text ++ [""] ++ c.nfa.tableLines ++ [""] ++
    c.dfa.tableLines

/-- The lines on the followpos construction. -/
def syntaxTreeLines (c : SyntaxTreeConversion) : List String :=
  "== Syntax tree construction ==" :: c.steps.map Step.text ++ [""] ++ c.tree.tableLines ++ [""] ++
    c.dfa.tableLines

/-- The report as text. -/
def text (r : RegexReport) : String :=
  Text.unlines (
    match r.thompson, r.syntaxTree with
    | none, none => []
    | some c, none => thompsonLines c
    | none, some d => syntaxTreeLines d
    | some c, some d => thompsonLines c ++ [""] ++ syntaxTreeLines d)

/-- The report as drawings, with an empty line between them. -/
def toDot (r : RegexReport) : String :=
  Text.joinWith "\n\n" (
    (r.thompson.toList.flatMap fun c => [c.nfa.toDot, c.dfa.toDot]) ++
      r.syntaxTree.toList.flatMap fun c => [c.tree.toDot, c.dfa.toDot])

/-- The report as a structured value. -/
def toJson (r : RegexReport) : Json :=
  .object (
    (r.thompson.toList.map fun c => ("thompson", c.toJson)) ++
      r.syntaxTree.toList.map fun c => ("syntax_tree", c.toJson))

end RegexReport

end FormalLang
