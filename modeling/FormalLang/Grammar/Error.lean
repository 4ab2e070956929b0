/-!
# What can be wrong with a grammar

Errors in the text of a grammar name the line, counted from one.  The others concern the rules as a
whole.
-/

namespace FormalLang

/-- Why a text or a list of rules is not a grammar. -/
inductive GrammarError where
  | missingArrow (line : Nat)
  | emptyHead (line : Nat)
  | invalidHead (line : Nat) (head : String)
  | emptyBody (line : Nat)
  | noRules
  | unknownStart (variableName : String)
  | undefinedVariable (variableName : String)
  deriving DecidableEq

namespace GrammarError

/-- The line that the error is in, if it is in one. -/
def line? : GrammarError → Option Nat
  | .missingArrow n => some n
  | .emptyHead n => some n
  | .invalidHead n _ => some n
  | .emptyBody n => some n
  | _ => none

/-- The beginning of a message about a line. -/
def linePart (n : Nat) : String := "[ERROR] (line " ++ toString n ++ "): "

/-- The wording of an error. -/
def message : GrammarError → String
  | .missingArrow n => linePart n ++ "expected `->` between the head and the bodies"
  | .emptyHead n => linePart n ++ "rule has no head"
  | .invalidHead n head => linePart n ++ "`" ++ head ++ "` cannot be the head of a rule"
  | .emptyBody n =>
    linePart n ++ "rule has an empty body, use an epsilon marker for the empty string"
  | .noRules => "grammar has no rules"
  | .unknownStart v => "start variable `" ++ v ++ "` has no rules"
  | .undefinedVariable v => "variable `" ++ v ++ "` is used but has no rules"

end GrammarError

end FormalLang
