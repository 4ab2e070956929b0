import FormalLang.Predictive.Parser

/-!
# The text of a trace

A trace is shown in three columns: the stack from the bottom to the top, the rest of the input, and
the action.  A column is as wide as its widest entry, and at least as wide as its title.
-/

namespace FormalLang

namespace TraceStep

/-- The texts on the stack, from the bottom to the top. -/
def stackTexts (s : TraceStep) : List String := (s.before.stack.map Goal.text).reverse

/-- The texts of the rest of the input. -/
def inputTexts (s : TraceStep) : List String := s.before.input.map Terminal.text

/-- The column of the stack. -/
def stackColumn (s : TraceStep) : String := Text.joinWith " " s.stackTexts

/-- The column of the input. -/
def inputColumn (s : TraceStep) : String := Text.joinWith " " s.inputTexts

end TraceStep

/-- The width of a column with the given entries. -/
def columnWidth (entries : List String) : Nat := (entries.map String.length).foldl max 5

/-- The lines of a trace, after a line with the titles. -/
def traceLines (trace : List TraceStep) : List String :=
  let stackWidth := columnWidth (trace.map TraceStep.stackColumn)
  let inputWidth := columnWidth (trace.map TraceStep.inputColumn)
  let row := fun (stack input action : String) =>
    Text.padRight stackWidth stack ++ "  " ++ Text.padRight inputWidth input ++ "  " ++ action
  row "Stack" "Input" "Action" ::
    trace.map fun s => row s.stackColumn s.inputColumn s.action.text

/-- The text of a trace. -/
def traceText (trace : List TraceStep) : String := Text.unlines (traceLines trace)

end FormalLang
