import FormalLang.Automaton.Exploration
import FormalLang.Position.SyntaxTree

/-!
# The followpos construction

The members of a state are the positions that can be read next.  Reading a character moves to
everything that follows one of its positions among the members, and a state accepts if the end
marker can be read next.
-/

namespace FormalLang

namespace SyntaxTree

/-- Adds what follows a position to the moves found so far. -/
def addMoves (tree : SyntaxTree) (moves : OrderedMap Char Members) (position : Nat) :
    OrderedMap Char Members :=
  match tree.symbolAt? position with
  | some (.char c) => moves.alter c fun target => target.getD ∅ ∪ tree.followpos position
  | _ => moves

/-- The moves out of a set of positions, one for each character at one of them.  The end marker has
no moves. -/
def positionMoves (tree : SyntaxTree) (members : Members) : List (Char × Members) :=
  (members.toList.foldl tree.addMoves ∅).toList

/-- The exploration of the sets of positions. -/
def exploration (tree : SyntaxTree) : Exploration :=
  .run tree.positionMoves (tree.symbols.size + 1) tree.shape.firstpos

/-- **The followpos automaton.** -/
def toDfa (tree : SyntaxTree) : Dfa :=
  tree.exploration.toDfa fun members => decide (tree.endPosition ∈ members)

end SyntaxTree

end FormalLang
