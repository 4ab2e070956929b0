import FormalLang.Predictive.Table
import FormalLang.Text.Blank

/-!
# The predictive parser

The parser keeps a stack of goals, with the start variable on top of the end of the input.  A
terminal on top has to be the next terminal of the input; a variable on top is replaced by the body
that the table gives for the next terminal.  Each action is recorded with the stack and the input
before it.

**Rounds.**  With the next terminal fixed, a table replaces each variable in one way only, so that
no variable can occur twice on a path of replacements unless they go on for ever.  A path is
therefore no longer than there are variables in the table, and a goal costs at most `(b + 1) ^ v`
replacements for bodies of at most `b` symbols and `v` variables.  This bounds the rounds of a
parse.
-/

namespace FormalLang

/-! ## 1. Outcomes -/

/-- Why an input is rejected. -/
inductive ParseError where
  | mismatch (expected found : Terminal)
  | noProduction (head : String) (terminal : Terminal)
  /-- The stack is empty before the input is. -/
  | leftoverInput (remaining : List Terminal)
  /-- The input is empty before the stack is. -/
  | unexpectedEnd (expected : Goal)
  deriving DecidableEq

/-- The wording of a rejection. -/
def ParseError.message : ParseError → String
  | .mismatch expected found =>
    "mismatch: expected " ++ expected.text ++ " but got " ++ found.text
  | .noProduction head terminal =>
    "no production found for " ++ head ++ " with input " ++ terminal.text
  | .leftoverInput remaining =>
    "input not fully consumed, remaining: " ++ Text.joinWith " " (remaining.map Terminal.text)
  | .unexpectedEnd expected => "unexpected end of input, expected " ++ expected.text

/-- What the parser does in a step. -/
inductive Action where
  /-- The terminal on top of the stack is the next one of the input. -/
  | matched (terminal : Terminal)
  /-- The variable on top of the stack is replaced by a body. -/
  | expanded (head : String) (body : Body)
  | failed (error : ParseError)
  deriving DecidableEq

/-- The wording of an action. -/
def Action.text : Action → String
  | .matched t => "Matched " ++ t.text
  | .expanded head body => head ++ " -> " ++ body.text
  | .failed e => "Error: " ++ e.message

/-- The stack and the input of a parser.  The top of the stack and the next terminal come first. -/
structure Configuration where
  stack : List Goal
  input : List Terminal
  deriving DecidableEq

/-- An action and the configuration before it. -/
structure TraceStep where
  before : Configuration
  action : Action
  deriving DecidableEq

/-- How a parse ends. -/
inductive Verdict where
  | accepted
  | rejected (error : ParseError)
  /-- The rounds are used up. -/
  | unfinished
  deriving DecidableEq

/-- A finished parse: every step, and the verdict. -/
structure Parse where
  trace : List TraceStep
  verdict : Verdict
  deriving DecidableEq

/-- Why an input was rejected, if it was. -/
def Parse.error? (p : Parse) : Option ParseError :=
  match p.verdict with
  | .rejected e => some e
  | _ => none

/-! ## 2. Running a table -/

namespace ParseTable

/-- What to do with a goal on top of the stack. -/
def choose (t : ParseTable) : Goal → List Terminal → Except ParseError Action
  | goal, [] => .error (.unexpectedEnd goal)
  | .terminal expected, found :: _ =>
    if expected = found then .ok (.matched expected) else .error (.mismatch expected found)
  | .variable head, found :: _ =>
    match t.get? head found with
    | none => .error (.noProduction head found)
    | some cell => .ok (.expanded head cell.body)

/-- The configuration after an action on the goal that was on top of the rest of the stack. -/
def perform (rest : List Goal) (input : List Terminal) : Action → Configuration
  | .matched _ => ⟨rest, input.tail⟩
  | .expanded _ body => ⟨body.goals ++ rest, input⟩
  | .failed _ => ⟨rest, input⟩

/-- Runs for at most so many rounds. -/
def runFrom (t : ParseTable) : Nat → Configuration → Parse
  | 0, _ => ⟨[], .unfinished⟩
  | n + 1, c =>
    match c.stack with
    | [] => ⟨[], if c.input.isEmpty then .accepted else .rejected (.leftoverInput c.input)⟩
    | goal :: rest =>
      match t.choose goal c.input with
      | .error e => ⟨[⟨c, .failed e⟩], .rejected e⟩
      | .ok action =>
        let later := t.runFrom n (perform rest c.input action)
        ⟨⟨c, action⟩ :: later.trace, later.verdict⟩

/-- The variables with a cell. -/
def heads (t : ParseTable) : OrderedSet String :=
  OrderedSet.ofList (t.cells.keys.map Prod.fst)

/-- The length of the longest body in a cell. -/
def longest (t : ParseTable) : Nat :=
  (t.cells.values.map fun cell => cell.body.length).foldl max 0

/-- A number of rounds that suffices for an input of some length. -/
def rounds (t : ParseTable) (length : Nat) : Nat :=
  (length + 1) * (length * (t.heads.size * t.longest) + 2) *
    Nat.pow (t.longest + 1) t.heads.size + length + 2

end ParseTable

/-! ## 3. The parser -/

/-- **A parser**: a start variable and a table. -/
structure Parser where
  start : String
  table : ParseTable
  deriving DecidableEq

namespace Parser

/-- The parser of a grammar, if the grammar has a table. -/
def ofGrammar (g : Grammar) : Except TableError Parser :=
  match FirstSets.ofGrammar g with
  | .error f => .error (.fault f)
  | .ok first =>
    match FollowSets.ofGrammar g first with
    | .error f => .error (.fault f)
    | .ok follow =>
      match ParseTable.build g first follow with
      | .error e => .error e
      | .ok table => .ok ⟨g.start, table⟩

/-- The terminal that a word of the input is. -/
def terminalOfWord (word : List Char) : Terminal :=
  if String.ofList word = endOfInputText then .endOfInput else .named (String.ofList word)

/-- The terminals of an input, without the end that is put behind it. -/
def tokens (input : List Char) : List Terminal := (Text.words input).map terminalOfWord

/-- The first configuration for some terminals. -/
def initial (p : Parser) (terminals : List Terminal) : Configuration :=
  ⟨[.variable p.start, .terminal .endOfInput], terminals ++ [.endOfInput]⟩

/-- **Parses words separated by white space.**  The word `$` is the end of the input; another one is
always put behind the last word. -/
def parse (p : Parser) (input : List Char) : Parse :=
  let c := p.initial (tokens input)
  p.table.runFrom (p.table.rounds c.input.length) c

end Parser

end FormalLang
