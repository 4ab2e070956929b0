import FormalLang.Json
import FormalLang.Predictive.Analysis
import FormalLang.Predictive.Trace

/-!
# The report on a grammar

The report shows every phase of an analysis, with the variables in the order of their declaration,
and the parse of an input if there is one.  The structured value lists sets and cells in ascending
order of their keys.
-/

namespace FormalLang

/-! ## 1. Structured values -/

/-- A grammar: its start and, for each variable, the texts of its bodies. -/
def Grammar.toJson (g : Grammar) : Json :=
  .object [
    ("start", .text g.start),
    ("rules", .list (g.productions.map fun p =>
      .object [("head", .text p.head), ("bodies", .texts (p.bodies.map Body.text))]))]

/-- FIRST sets, by variable. -/
def FirstSets.toJson (first : FirstSets) : Json :=
  .object (first.sets.toList.map fun p => (p.1, .texts (p.2.toList.map Symbol.text)))

/-- FOLLOW sets, by variable. -/
def FollowSets.toJson (follow : FollowSets) : Json :=
  .object (follow.sets.toList.map fun p => (p.1, .texts (p.2.toList.map Terminal.text)))

/-- The name of a cell's field: the variable and the terminal, with a comma between them. -/
def ParseTable.cellName (key : String × Terminal) : String := key.1 ++ "," ++ key.2.text

/-- A table: the text of the body in each cell.  Two cells may have fields of one name. -/
def ParseTable.toJson (t : ParseTable) : Json :=
  .object (t.cells.toList.map fun p => (cellName p.1, .text p.2.body.text))

/-- A step of a trace. -/
def TraceStep.toJson (s : TraceStep) : Json :=
  .object [("stack", .texts s.stackTexts), ("input", .texts s.inputTexts),
    ("action", .text s.action.text)]

/-- The fields of a parse; the error is there only if the input was rejected. -/
def Parse.fields (p : Parse) : List (String × Json) :=
  [("success", .bool (decide (p.verdict = .accepted)))] ++
    (p.error?.toList.map fun e => ("error", .text e.message)) ++
    [("steps", .list (p.trace.map TraceStep.toJson))]

/-- A parse. -/
def Parse.toJson (p : Parse) : Json := .object p.fields

/-- The fields of an analysis. -/
def Analysis.fields (a : Analysis) : List (String × Json) :=
  [("grammar", a.grammar.toJson), ("steps", .texts a.stepLines), ("first", a.first.toJson),
    ("follow", a.follow.toJson), ("table", a.parser.table.toJson)]

/-- An analysis. -/
def Analysis.toJson (a : Analysis) : Json := .object a.fields

/-! ## 2. Text -/

/-- Texts between braces, such as `{ a, b }`. -/
def Text.bracedList (items : List String) : String :=
  match items with
  | [] => "\x7b \x7d"
  | items => "\x7b " ++ Text.joinWith ", " items ++ " \x7d"

/-- The lines on the cells of a table, by variable. -/
def Analysis.tableLines (a : Analysis) : List String :=
  a.grammar.variableNames.flatMap fun v =>
    (a.parser.table.cells.toList.filter fun entry => decide (entry.1.1 = v)).map
      ParseTable.cellLine

/-- The lines of an analysis. -/
def Analysis.lines (a : Analysis) : List String :=
  ["Grammar:"] ++ a.grammar.productions.map Production.line ++
  ["", "Steps:"] ++ a.stepLines ++
  ["", "FIRST:"] ++ (a.grammar.variableNames.map fun v =>
    "FIRST(" ++ v ++ ") = " ++
      Text.bracedList ((((a.first.get? v).getD ∅).toList).map Symbol.text)) ++
  ["", "FOLLOW:"] ++ (a.grammar.variableNames.map fun v =>
    "FOLLOW(" ++ v ++ ") = " ++
      Text.bracedList ((a.follow.getD v).toList.map Terminal.text)) ++
  ["", "Table:"] ++ a.tableLines

/-- The text of an analysis. -/
def Analysis.text (a : Analysis) : String := Text.unlines a.lines

/-- The line on the end of a parse. -/
def Verdict.line : Verdict → String
  | .accepted => "Accepted."
  | .rejected e => "Rejected: " ++ e.message
  | .unfinished => "Unfinished."

/-! ## 3. The report -/

/-- An analysis and, if there is an input, the input and its parse. -/
structure GrammarReport where
  analysis : Analysis
  parsed : Option (String × Parse)

namespace GrammarReport

/-- The report on an analysis and perhaps an input. -/
def ofAnalysis (a : Analysis) (input : Option String) : GrammarReport :=
  ⟨a, input.map fun text => (text, a.parse text.toList)⟩

/-- Why the input was rejected, if it was. -/
def rejected? (r : GrammarReport) : Option ParseError := r.parsed.bind fun p => p.2.error?

/-- The report as text. -/
def text (r : GrammarReport) : String :=
  r.analysis.text ++
    match r.parsed with
    | none => ""
    | some (input, parse) =>
      "\nParse of `" ++ input ++ "`:\n" ++ traceText parse.trace ++
        Text.unlines [parse.verdict.line]

/-- The report as a structured value. -/
def toJson (r : GrammarReport) : Json :=
  .object (r.analysis.fields ++ r.parsed.toList.map fun p => ("parse", p.2.toJson))

end GrammarReport

end FormalLang
