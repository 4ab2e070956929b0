import FormalLang.Grammar.Basic
import FormalLang.Grammar.Error

/-!
# Building a grammar rule by rule

Rules are added one at a time; the bodies of a variable are kept together at the place where it was
first declared.  `build` checks the whole: every variable in a body has a rule, and the start is a
variable.  Without a given start, the first declared variable is the start.
-/

namespace FormalLang

/-- A grammar in the making. -/
structure GrammarBuilder where
  start : Option String
  productions : List Production
  deriving DecidableEq

namespace GrammarBuilder

/-- The builder without rules. -/
def empty : GrammarBuilder := ⟨none, []⟩

/-- Appends a body to those of its head, which is declared if it was not. -/
def addBody (head : String) (body : Body) : List Production → List Production
  | [] => [⟨head, [body]⟩]
  | p :: rest =>
    if p.head = head then ⟨p.head, p.bodies ++ [body]⟩ :: rest else p :: addBody head body rest

/-- Adds a rule; its body is brought into normal form. -/
def addRule (b : GrammarBuilder) (head : String) (body : Body) : GrammarBuilder :=
  { b with productions := addBody head body.normalize b.productions }

/-- Adds several rules of one variable. -/
def addRules (b : GrammarBuilder) (head : String) (bodies : List Body) : GrammarBuilder :=
  bodies.foldl (fun b body => b.addRule head body) b

/-- Sets the start variable. -/
def setStart (b : GrammarBuilder) (name : String) : GrammarBuilder := { b with start := some name }

/-- The declared variables. -/
def heads (b : GrammarBuilder) : List String := b.productions.map Production.head

/-- The variables in bodies, in order. -/
def mentioned (b : GrammarBuilder) : List String :=
  b.productions.flatMap fun p => p.bodies.flatMap fun body => body.filterMap Symbol.variableName?

/-- The first variable in a body that has no rule. -/
def undefined? (b : GrammarBuilder) : Option String :=
  b.mentioned.find? fun name => decide (name ∉ b.heads)

/-- **The grammar of the rules**, if they make one. -/
def build (b : GrammarBuilder) : Except GrammarError Grammar :=
  match b.undefined? with
  | some name => .error (.undefinedVariable name)
  | none =>
    match b.start, b.productions with
    | some name, _ =>
      if name ∈ b.heads then .ok ⟨name, b.productions⟩ else .error (.unknownStart name)
    | none, [] => .error .noRules
    | none, p :: _ => .ok ⟨p.head, b.productions⟩

end GrammarBuilder

end FormalLang
