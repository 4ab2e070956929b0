import FormalLang.Fault
import FormalLang.Grammar.Symbol

/-!
# Context-free grammars

A grammar lists its variables in the order in which they were declared, each with its bodies in
order.  The order matters to the removal of left recursion and to everything that is printed, so it
is part of the grammar: two grammars are equal if they agree in start, variables, bodies and order.
-/

namespace FormalLang

/-- A variable with all its bodies. -/
structure Production where
  head : String
  bodies : List Body
  deriving DecidableEq

/-- **A context-free grammar.** -/
structure Grammar where
  start : String
  productions : List Production
  deriving DecidableEq

/-- One body of a variable, with its place among the bodies of that variable. -/
structure Rule where
  head : String
  alternative : Nat
  body : Body
  deriving DecidableEq

namespace Production

/-- The rules of one variable. -/
def rules (p : Production) : List Rule :=
  p.bodies.mapIdx fun alternative body => ⟨p.head, alternative, body⟩

/-- The line of a variable.  One without bodies is shown as a comment. -/
def line (p : Production) : String :=
  match p.bodies with
  | [] => "# " ++ p.head ++ " has no bodies"
  | bodies => p.head ++ " -> " ++ Text.joinWith " | " (bodies.map Body.text)

end Production

namespace Grammar

/-! ## 1. Reading a grammar -/

/-- The variables, in the order of their declaration. -/
def variableNames (g : Grammar) : List String := g.productions.map Production.head

/-- Whether a name is a variable. -/
def isVariable (g : Grammar) (name : String) : Bool := decide (name ∈ g.variableNames)

/-- The bodies of a name; a name that is no variable has none. -/
def bodiesOf (g : Grammar) (name : String) : List Body :=
  match g.productions.find? fun p => decide (p.head = name) with
  | none => []
  | some p => p.bodies

/-- The bodies of a variable. -/
def getBodies (g : Grammar) (name : String) : Except Fault (List Body) :=
  if g.isVariable name then .ok (g.bodiesOf name) else .error .missingVariable

/-- All rules, in the order of their declaration. -/
def rules (g : Grammar) : List Rule := g.productions.flatMap Production.rules

/-- The terminals in bodies, and the end of the input. -/
def terminals (g : Grammar) : OrderedSet Terminal :=
  OrderedSet.ofList (.endOfInput :: g.rules.flatMap fun r => r.body.filterMap Symbol.terminal?)

/-- The grammar with other bodies for a variable. -/
def setBodies (g : Grammar) (name : String) (bodies : List Body) : Grammar :=
  { g with productions := g.productions.map fun p =>
      if p.head = name then ⟨p.head, bodies⟩ else p }

/-! ## 2. Fresh names -/

/-- The names that a new variable must avoid: those of the variables and of the terminals. -/
def usedNames (g : Grammar) : List String :=
  g.variableNames ++ g.terminals.toList.filterMap fun
    | .named name => some name
    | .endOfInput => none

/-- Appends a suffix until a name is not used, at most so many times. -/
def avoid (used : List String) (suffix : String) : Nat → String → String
  | 0, name => name
  | n + 1, name => if name ∈ used then avoid used suffix n (name ++ suffix) else name

/-- **A fresh name**: the variable followed by the fewest copies of the suffix, at least one, that
make a name not used in the grammar. -/
def freshVariable (g : Grammar) (name suffix : String) : String :=
  avoid g.usedNames suffix g.usedNames.length (name ++ suffix)

/-! ## 3. Printing -/

/-- The text of a grammar, one line for each variable. -/
def text (g : Grammar) : String := Text.unlines (g.productions.map Production.line)

end Grammar

end FormalLang
