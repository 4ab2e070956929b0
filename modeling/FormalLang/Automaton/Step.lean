import FormalLang.Automaton.Nfa
import FormalLang.Text.Layout

/-!
# The steps of a construction

Each construction records what it does, one step at a time, so that it can be replayed.  A step has
one line of text, and the reports show these lines.
-/

namespace FormalLang

/-- One transition of a deterministic automaton, as it was found: the members are those of the
target. -/
structure Move where
  source : Nat
  symbol : Char
  target : Nat
  members : OrderedSet Nat
  deriving DecidableEq

/-- **One action of a construction.** -/
inductive Step where
  /-- The listing that is read, and whether it carries the end marker. -/
  | listing (text : String) (augmented : Bool)
  /-- Two new states and the edge between them. -/
  | symbol (label : Label) (start accept : Nat)
  /-- Two new states around the automaton on top of the operand stack. -/
  | star (start accept : Nat)
  /-- An edge between the two automata on top of the operand stack. -/
  | concat (source target : Nat)
  /-- Two new states around the two automata on top of the operand stack. -/
  | union (start accept : Nat)
  | dfaStart (members : OrderedSet Nat)
  | dfaMove (move : Move)
  | acceptStates (ids : List Nat)
  | leaf (symbol : Char) (position : Nat)
  | treeConcat (left right : Char)
  | treeUnion (left right : Char)
  | treeStar (child : Char)
  | properties (nullable : Bool) (firstpos lastpos : OrderedSet Nat)
  | followpos (position : Nat) (follow : OrderedSet Nat)
  deriving DecidableEq

namespace Step

/-- A set of numbers as `{1,2,3}`. -/
def memberText (s : OrderedSet Nat) : String := Text.braced (Text.commaList s.toList)

/-- A character as a text. -/
def charText (c : Char) : String := String.ofList [c]

/-- The line of a step. -/
def text : Step → String
  | .listing t false => "Postfix: " ++ t
  | .listing t true => "Postfix with end marker: " ++ t
  | .symbol label s a =>
    "Symbol " ++ charText label.toChar ++ ": " ++ toString s ++ " -> " ++ toString a
  | .star s a => "Kleene Star: " ++ toString s ++ " -> " ++ toString a
  | .concat s t => "Concatenation: " ++ toString s ++ " -> " ++ toString t
  | .union s a => "Union: " ++ toString s ++ " -> " ++ toString a
  | .dfaStart members => "Start state: " ++ memberText members ++ " -> S0"
  | .dfaMove m =>
    "S" ++ toString m.source ++ " --" ++ charText m.symbol ++ "--> S" ++ toString m.target ++
      " (from " ++ memberText m.members ++ ")"
  | .acceptStates ids => "Accept states: " ++ Text.spacedList ids
  | .leaf c p => "Leaf " ++ charText c ++ " at position " ++ toString p
  | .treeConcat l r => "Concatenation of " ++ charText l ++ " and " ++ charText r
  | .treeUnion l r => "Union of " ++ charText l ++ " and " ++ charText r
  | .treeStar c => "Kleene Star on " ++ charText c
  | .properties nullable first last =>
    "Computed properties: nullable=" ++ Text.ofBool nullable ++ ", firstpos=" ++
      memberText first ++ ", lastpos=" ++ memberText last
  | .followpos p follow => "Followpos(" ++ toString p ++ "): " ++ memberText follow

end Step

end FormalLang
