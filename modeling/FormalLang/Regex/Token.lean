import FormalLang.Regex.Basic
import FormalLang.Regex.Error
import FormalLang.Text.Alphanumeric

/-!
# Tokens of a regular expression

Every character of the text is one token: an alphanumeric character or `ε` is a leaf, and `|`, `*`,
`(` and `)` are themselves.  There is no escape.  The scan stops at the leftmost character that is
no token (`scan`).
-/

namespace FormalLang

/-- What a token is. -/
inductive TokenKind where
  | leaf (symbol : Leaf)
  | openParen
  | closeParen
  | operator (op : Operator)
  deriving DecidableEq

/-- A token and its position.  A token that the text does not contain (a concatenation, the
augmentation) has the position of the character that it stands in front of. -/
structure Token where
  kind : TokenKind
  position : Nat
  deriving DecidableEq

namespace TokenKind

/-- Whether an operand may end with this token. -/
def endsOperand : TokenKind → Bool
  | .leaf _ => true
  | .closeParen => true
  | .operator .star => true
  | _ => false

/-- Whether an operand may begin with this token. -/
def startsOperand : TokenKind → Bool
  | .leaf _ => true
  | .openParen => true
  | _ => false

end TokenKind

namespace Token

/-- The token that a character at a position is. -/
def ofChar (c : Char) (position : Nat) : Except RegexError Token :=
  if c = '(' then .ok ⟨.openParen, position⟩
  else if c = ')' then .ok ⟨.closeParen, position⟩
  else if c = '|' then .ok ⟨.operator .union, position⟩
  else if c = '*' then .ok ⟨.operator .star, position⟩
  else if c = epsilonChar then .ok ⟨.leaf .epsilon, position⟩
  else if c = endMarkerChar then .error (.reservedSymbol c position)
  else if Text.isAlphanumeric c then .ok ⟨.leaf (.char c), position⟩
  else .error (.invalidSymbol c position)

/-- The tokens of a text whose first character has the given position. -/
def scanFrom (position : Nat) : List Char → Except RegexError (List Token)
  | [] => .ok []
  | c :: cs =>
    match ofChar c position with
    | .error e => .error e
    | .ok token =>
      match scanFrom (position + 1) cs with
      | .error e => .error e
      | .ok rest => .ok (token :: rest)

/-- The tokens of a text. -/
def scan (cs : List Char) : Except RegexError (List Token) := scanFrom 0 cs

end Token

end FormalLang
