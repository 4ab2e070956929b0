import FormalLang.Grammar.Symbol

/-!
# Options for reading and preparing a grammar
-/

namespace FormalLang

/-- How a grammar is read and how new variables are named. -/
structure GrammarOptions where
  /-- The texts that stand for the empty body. -/
  markers : List String
  /-- What is appended to a variable to name a new one. -/
  suffix : String
  /-- The start variable, if it is not the first one. -/
  start : Option String
  deriving DecidableEq

namespace GrammarOptions

/-- One marker `ε`, the suffix `'`, and the first variable as the start. -/
def default : GrammarOptions := ⟨[epsilonText], "'", none⟩

/-- Adds a marker for the empty body. -/
def addMarker (o : GrammarOptions) (marker : String) : GrammarOptions :=
  if marker ∈ o.markers then o else { o with markers := o.markers ++ [marker] }

/-- Sets the suffix.  An empty suffix makes no new name and is ignored. -/
def setSuffix (o : GrammarOptions) (suffix : String) : GrammarOptions :=
  if suffix = "" then o else { o with suffix }

/-- Sets the start variable. -/
def setStart (o : GrammarOptions) (name : String) : GrammarOptions := { o with start := some name }

/-- Whether a text stands for the empty body. -/
def isEpsilon (o : GrammarOptions) (text : String) : Bool := decide (text ∈ o.markers)

end GrammarOptions

end FormalLang
