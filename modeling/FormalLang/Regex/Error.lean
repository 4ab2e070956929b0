/-!
# What can be wrong with the text of an expression

Positions count characters of the text from zero.
-/

namespace FormalLang

/-- Why a text is not a regular expression. -/
inductive RegexError where
  /-- Nothing but parentheses, each pair of which is inside the one before. -/
  | emptyExpression
  /-- A parenthesis without partner. -/
  | unbalancedParen (position : Nat)
  /-- A character that is neither alphanumeric nor an operator. -/
  | invalidSymbol (symbol : Char) (position : Nat)
  /-- A character kept for the end marker. -/
  | reservedSymbol (symbol : Char) (position : Nat)
  /-- An operator with too few operands. -/
  | missingOperand (operator : Char) (position : Nat)
  deriving DecidableEq

namespace RegexError

/-- Where in the text the error is, if it is anywhere in particular. -/
def position? : RegexError → Option Nat
  | .emptyExpression => none
  | .unbalancedParen p => some p
  | .invalidSymbol _ p => some p
  | .reservedSymbol _ p => some p
  | .missingOperand _ p => some p

/-- The wording of an error. -/
def message : RegexError → String
  | .emptyExpression => "regex is empty"
  | .unbalancedParen p => "[ERROR] (" ++ toString p ++ "): unbalanced parenthesis"
  | .invalidSymbol c p =>
    "[ERROR] (" ++ toString p ++ "): invalid symbol `" ++ String.ofList [c] ++
      "`, expected an alphanumeric character"
  | .reservedSymbol c p =>
    "[ERROR] (" ++ toString p ++ "): `" ++ String.ofList [c] ++ "` is reserved as the end marker"
  | .missingOperand c p =>
    "[ERROR] (" ++ toString p ++ "): operator `" ++ String.ofList [c] ++
      "` is missing an operand"

end RegexError

end FormalLang
