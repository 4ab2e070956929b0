import FormalLang.Ordered.Map
import FormalLang.Text.Layout

/-!
# Symbols of a grammar

A terminal is a name or the end of the input; a variable is a name; and `ε` marks the empty body.

**Goals.**  In a sentential form and on the stack of a parser there is no `ε`: `Goal` is what
remains of the symbols without it, and `Body.goals` erases it from a body.
-/

namespace FormalLang

/-- The text that marks the empty body. -/
def epsilonText : String := "ε"

/-- The text of the end of the input. -/
def endOfInputText : String := "$"

/-- A terminal of a grammar. -/
inductive Terminal where
  | named (name : String)
  | endOfInput
  deriving DecidableEq

/-- A symbol in the body of a rule, or in a FIRST set. -/
inductive Symbol where
  | terminal (t : Terminal)
  | variable (name : String)
  /-- The empty string. -/
  | epsilon
  deriving DecidableEq

/-- The right-hand side of a rule. -/
abbrev Body := List Symbol

namespace Terminal

/-- What a terminal is written as. -/
def text : Terminal → String
  | .named name => name
  | .endOfInput => endOfInputText

/-- The place of a terminal: names first, by their text. -/
def key : Terminal → Nat × String
  | .named name => (0, name)
  | .endOfInput => (1, "")

/-- Named terminals come first, in the order of their names, and then the end of the input. -/
instance : Ordered Terminal :=
  Ordered.ofKey key (by rintro (_ | _) (_ | _) h <;> simp_all [key])

end Terminal

namespace Symbol

/-- What a symbol is written as. -/
def text : Symbol → String
  | .terminal t => t.text
  | .variable name => name
  | .epsilon => epsilonText

/-- The place of a symbol: terminals, then variables, then `ε`. -/
def key : Symbol → Nat × (Nat × String)
  | .terminal t => (0, t.key)
  | .variable name => (1, (0, name))
  | .epsilon => (2, (0, ""))

/-- Terminals come first, then variables, then `ε`. -/
instance : Ordered Symbol :=
  Ordered.ofKey key (by
    rintro (s | _ | _) (t | _ | _) h <;> simp_all [key]
    rcases s with _ | _ <;> rcases t with _ | _ <;> simp_all [Terminal.key])

/-- The terminal that a symbol is. -/
def terminal? : Symbol → Option Terminal
  | .terminal t => some t
  | _ => none

/-- The name of the variable that a symbol is. -/
def variableName? : Symbol → Option String
  | .variable name => some name
  | _ => none

end Symbol

/-- A symbol other than `ε`: what is still to be derived. -/
inductive Goal where
  | terminal (t : Terminal)
  | variable (name : String)
  deriving DecidableEq

/-- What a goal is written as. -/
def Goal.text : Goal → String
  | .terminal t => t.text
  | .variable name => name

/-- The goal that a symbol is, unless it is `ε`. -/
def Symbol.goal? : Symbol → Option Goal
  | .terminal t => some (.terminal t)
  | .variable name => some (.variable name)
  | .epsilon => none

namespace Body

/-- The goals of a body: its symbols without `ε`. -/
def goals (body : Body) : List Goal := body.filterMap Symbol.goal?

/-- The symbols of a body, separated by blanks. -/
def text (body : Body) : String := Text.joinWith " " (body.map Symbol.text)

/-- A body in normal form: `ε` next to other symbols is dropped, and the empty body is `ε`. -/
def normalize (body : Body) : Body :=
  match body.filter fun s => s ≠ .epsilon with
  | [] => [.epsilon]
  | s :: rest => s :: rest

end Body

end FormalLang
