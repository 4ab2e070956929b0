import FormalLang.Journal.Record
import FormalLang.Predictive.Analysis

/-!
# The journal of the analysis of grammars

Reading warns of a start variable that is not declared first, the removal of left recursion tells
its events, the search for the FIRST sets tells every growth, and the parser every action.
-/

namespace FormalLang.Journal

/-- The warning about a start variable that is not the first one. -/
def ofStart (options : GrammarOptions) (rules : List WrittenRule) : List Record :=
  match options.start, rules with
  | some name, rule :: _ =>
    if rule.head = name then []
    else [⟨.warn, "start variable `" ++ name ++ "` is not the first declared variable `" ++
      rule.head ++ "`"⟩]
  | _, _ => []

/-- The records of reading a grammar. -/
def ofGrammarText (options : GrammarOptions) (cs : List Char) : List Record :=
  match WrittenRule.ofText options cs with
  | .error _ => []
  | .ok rules =>
    ofStart options rules ++
      match (WrittenRule.toBuilder options rules).build with
      | .error _ => []
      | .ok g => [⟨.debug, "read grammar with " ++ toString g.variableNames.length ++
          " variables and " ++ toString g.rules.length ++ " rules"⟩]

/-- The record of an event. -/
def ofEvent : RecursionEvent → List Record
  | .substituted earlier head => [⟨.trace, "substituted " ++ earlier ++ " into " ++ head⟩]
  | .dropped head =>
    [⟨.warn, "dropping `" ++ head ++ " -> " ++ head ++ "`, it derives nothing"⟩]
  | .unfounded head => [⟨.warn, "`" ++ head ++ "` has no body without left recursion"⟩]
  | .introduced _ _ => []

/-- The records of removing left recursion. -/
def ofRemoval (before : Grammar) (r : Grammar.Removal) : List Record :=
  r.events.flatMap ofEvent ++
    [⟨.debug, "left recursion removed, " ++
      toString (r.grammar.variableNames.length - before.variableNames.length) ++
      " variables introduced"⟩]

/-- The records of the search for the FIRST sets. -/
def ofFirst (g : Grammar) : List Record :=
  match FirstSets.search g g.variableNames with
  | .error _ => []
  | .ok s => s.growth.map fun p =>
    ⟨.trace, "FIRST(" ++ p.1 ++ ") grew to " ++ toString p.2 ++ " symbols"⟩

/-- The record of a table. -/
def ofTable (t : ParseTable) : List Record :=
  [⟨.debug, "parsing table built with " ++ toString t.size ++ " entries"⟩]

/-- The records of making a parser. -/
def ofParser (g : Grammar) : List Record :=
  ofFirst g ++
    match Parser.ofGrammar g with
    | .error _ => []
    | .ok p => ofTable p.table

/-- The records of an analysis. -/
def ofAnalysis (options : GrammarOptions) (g : Grammar) : List Record :=
  let removal := g.removeLeftRecursion options.suffix
  ofRemoval g removal ++ ofParser removal.grammar

/-- The records of the analysis of a text. -/
def ofAnalysisText (options : GrammarOptions) (cs : List Char) : List Record :=
  ofGrammarText options cs ++
    match Grammar.ofText options cs with
    | .error _ => []
    | .ok g => ofAnalysis options g

/-- The record of a step of a parse. -/
def ofAction : Action → List Record
  | .failed _ => []
  | action => [⟨.trace, action.text⟩]

/-- The record of the end of a parse. -/
def ofVerdict (steps : Nat) : Verdict → List Record
  | .accepted => [⟨.debug, "parsed input in " ++ toString steps ++ " steps"⟩]
  | .rejected e => [⟨.debug, "parse failed: " ++ e.message⟩]
  | .unfinished => []

/-- The records of a parse. -/
def ofParse (p : Parse) : List Record :=
  (p.trace.flatMap fun s => ofAction s.action) ++ ofVerdict p.trace.length p.verdict

end FormalLang.Journal
