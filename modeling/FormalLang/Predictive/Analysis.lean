import FormalLang.Grammar.LeftRecursion
import FormalLang.Grammar.Reader
import FormalLang.Predictive.Parser

/-!
# The analysis of a grammar

An analysis removes left recursion, finds the FIRST and FOLLOW sets and builds the table.  It fails
if the grammar cannot be read or its table has a conflict.
-/

namespace FormalLang

/-- **A grammar prepared for predictive parsing.** -/
structure Analysis where
  /-- The grammar after the removal of left recursion. -/
  grammar : Grammar
  events : List RecursionEvent
  first : FirstSets
  follow : FollowSets
  parser : Parser
  deriving DecidableEq

/-- Why there is no analysis. -/
inductive AnalysisError where
  | grammar (e : GrammarError)
  | table (e : TableError)
  deriving DecidableEq

namespace Analysis

/-- The analysis of a grammar. -/
def ofGrammar (options : GrammarOptions) (g : Grammar) : Except TableError Analysis :=
  let removal := g.removeLeftRecursion options.suffix
  let grammar := removal.grammar
  match FirstSets.ofGrammar grammar with
  | .error f => .error (.fault f)
  | .ok first =>
    match FollowSets.ofGrammar grammar first with
    | .error f => .error (.fault f)
    | .ok follow =>
      match ParseTable.build grammar first follow with
      | .error e => .error e
      | .ok table => .ok ⟨grammar, removal.events, first, follow, ⟨grammar.start, table⟩⟩

/-- The analysis of the grammar that a text describes. -/
def ofText (options : GrammarOptions) (cs : List Char) : Except AnalysisError Analysis :=
  match Grammar.ofText options cs with
  | .error e => .error (.grammar e)
  | .ok g =>
    match ofGrammar options g with
    | .error e => .error (.table e)
    | .ok a => .ok a

/-- Parses an input with the table of the analysis. -/
def parse (a : Analysis) (input : List Char) : Parse := a.parser.parse input

/-- The lines on the steps of the analysis. -/
def stepLines (a : Analysis) : List String :=
  a.events.flatMap RecursionEvent.reportLines ++ ["Parsing table built successfully."]

end Analysis

end FormalLang
