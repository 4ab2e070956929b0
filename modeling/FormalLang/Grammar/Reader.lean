import FormalLang.Grammar.Builder
import FormalLang.Grammar.Options
import FormalLang.Text.Blank

/-!
# Reading a grammar from text

Every line holds a head, `->`, and bodies separated by `|`; a body is a list of symbols separated by
white space.  Blank lines and lines that begin with `#` or `//` are skipped.

**Which symbol is what** is decided when all lines are read: a marker is `ε`, then `$` is the end of
the input, then the head of any line is a variable, and everything else is a terminal.
-/

namespace FormalLang

/-- A rule as it is written, before its symbols are told apart. -/
structure WrittenRule where
  head : String
  bodies : List (List String)
  deriving DecidableEq

namespace WrittenRule

/-- Whether a trimmed line holds no rule. -/
def isSkipped (line : List Char) : Bool :=
  line.isEmpty || line.head? = some '#' || line.take 2 = ['/', '/']

/-- Reads a trimmed line with its number. -/
def ofLine (options : GrammarOptions) (number : Nat) (line : List Char) :
    Except GrammarError WrittenRule :=
  match Text.splitArrow line with
  | none => .error (.missingArrow number)
  | some (before, after) =>
    let head := Text.trim before
    if head.isEmpty then .error (.emptyHead number)
    else if head.any Text.isBlank || String.ofList head = endOfInputText ||
        options.isEpsilon (String.ofList head) then
      .error (.invalidHead number (String.ofList head))
    else
      let bodies := (Text.splitAt '|' after).map fun body => (Text.words body).map String.ofList
      if bodies.any List.isEmpty then .error (.emptyBody number)
      else .ok ⟨String.ofList head, bodies⟩

/-- Reads lines from a number on, up to the first error. -/
def ofLines (options : GrammarOptions) : Nat → List (List Char) →
    Except GrammarError (List WrittenRule)
  | _, [] => .ok []
  | number, line :: rest =>
    let content := Text.trim line
    if isSkipped content then ofLines options (number + 1) rest
    else
      match ofLine options number content with
      | .error e => .error e
      | .ok rule =>
        match ofLines options (number + 1) rest with
        | .error e => .error e
        | .ok rules => .ok (rule :: rules)

/-- The written rules of a text. -/
def ofText (options : GrammarOptions) (cs : List Char) : Except GrammarError (List WrittenRule) :=
  ofLines options 1 (Text.lines cs)

/-- What a written symbol is, given the heads of all rules. -/
def classify (options : GrammarOptions) (heads : List String) (symbol : String) : Symbol :=
  if options.isEpsilon symbol then .epsilon
  else if symbol = endOfInputText then .terminal .endOfInput
  else if symbol ∈ heads then .variable symbol
  else .terminal (.named symbol)

/-- The builder with the written rules, and with the start that the options give. -/
def toBuilder (options : GrammarOptions) (rules : List WrittenRule) : GrammarBuilder :=
  let heads := rules.map WrittenRule.head
  let builder := rules.foldl (fun b rule =>
    b.addRules rule.head (rule.bodies.map fun body => body.map (classify options heads))) .empty
  match options.start with
  | none => builder
  | some name => builder.setStart name

end WrittenRule

/-- **The grammar that a text describes.** -/
def Grammar.ofText (options : GrammarOptions) (cs : List Char) : Except GrammarError Grammar :=
  match WrittenRule.ofText options cs with
  | .error e => .error e
  | .ok rules => (WrittenRule.toBuilder options rules).build

end FormalLang
