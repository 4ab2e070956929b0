/-!
# Regular expressions

An expression is a tree of leaves, concatenations, unions and stars.  A leaf is a character, the
empty word, or the end marker that the followpos construction puts behind an expression.

**The listing** of an expression names its nodes in post-order: operands first, operator last.  It
is what the front end writes and what every construction reads.
-/

namespace FormalLang

/-- The character that stands for the empty word. -/
def epsilonChar : Char := 'ε'

/-- The character that stands for the end marker. -/
def endMarkerChar : Char := '#'

/-- What a leaf of an expression stands for. -/
inductive Leaf where
  | char (c : Char)
  /-- The empty word. -/
  | epsilon
  /-- The marker behind an augmented expression. -/
  | endMarker
  deriving DecidableEq

/-- The character a leaf is written with. -/
def Leaf.toChar : Leaf → Char
  | .char c => c
  | .epsilon => epsilonChar
  | .endMarker => endMarkerChar

/-- The word a leaf denotes.  The end marker denotes its own character. -/
def Leaf.word : Leaf → List Char
  | .char c => [c]
  | .epsilon => []
  | .endMarker => [endMarkerChar]

/-- An operator of the regular expressions. -/
inductive Operator where
  | star
  | concat
  | union
  deriving DecidableEq

namespace Operator

/-- How tightly an operator binds. -/
def precedence : Operator → Nat
  | .star => 3
  | .concat => 2
  | .union => 1

/-- The character an operator is written with.  Concatenation has one in listings only. -/
def toChar : Operator → Char
  | .star => '*'
  | .concat => '.'
  | .union => '|'

end Operator

/-- **A regular expression.** -/
inductive Regex where
  | leaf (symbol : Leaf)
  | concat (left right : Regex)
  | union (left right : Regex)
  | star (inner : Regex)
  deriving DecidableEq

/-- An entry of a listing: a leaf, or an operator that takes the results before it. -/
inductive Entry where
  | leaf (symbol : Leaf)
  | operator (op : Operator)
  deriving DecidableEq

/-- The character an entry is written with. -/
def Entry.toChar : Entry → Char
  | .leaf s => s.toChar
  | .operator op => op.toChar

namespace Regex

/-- The nodes of an expression in post-order. -/
def listing : Regex → List Entry
  | .leaf s => [.leaf s]
  | .concat l r => l.listing ++ r.listing ++ [.operator .concat]
  | .union l r => l.listing ++ r.listing ++ [.operator .union]
  | .star e => e.listing ++ [.operator .star]

/-- The leaves of an expression, from left to right. -/
def leaves : Regex → List Leaf
  | .leaf s => [s]
  | .concat l r => l.leaves ++ r.leaves
  | .union l r => l.leaves ++ r.leaves
  | .star e => e.leaves

end Regex

end FormalLang
