import FormalLang.Fault
import FormalLang.Position.Tree

/-!
# The syntax tree of an augmented expression

The tree keeps what the followpos construction reads: its nodes in post-order, the table of
following positions, the leaf at each position, and the position of the end marker.
-/

namespace FormalLang

/-- **A syntax tree** with its tables. -/
structure SyntaxTree where
  /-- The expression with numbered leaves. -/
  shape : PositionTree
  nodes : List Node
  /-- The number of the root. -/
  root : Nat
  follow : PositionTree.FollowTable
  symbols : OrderedMap Nat Leaf
  /-- The position of the end marker. -/
  endPosition : Nat
  deriving DecidableEq

namespace SyntaxTree

/-- The first position with the end marker, or zero if there is none. -/
def endPositionOf (symbols : OrderedMap Nat Leaf) : Nat :=
  ((symbols.toList.find? fun p => decide (p.2 = .endMarker)).map Prod.fst).getD 0

/-- The syntax tree of an expression that carries the end marker. -/
def ofRegex (e : Regex) : SyntaxTree :=
  let shape := e.number 1
  let symbols := shape.symbolTable
  { shape
    nodes := shape.nodesFrom 0
    root := shape.nodeCount - 1
    follow := shape.followTable
    symbols
    endPosition := endPositionOf symbols }

/-- The node with a number. -/
def getNode (tree : SyntaxTree) (id : Nat) : Except Fault Node :=
  match tree.nodes[id]? with
  | none => .error .missingNode
  | some node => .ok node

/-- The positions that can follow a position; none follow an unknown one. -/
def followpos (tree : SyntaxTree) (position : Nat) : OrderedSet Nat :=
  (tree.follow.find? position).getD ∅

/-- The leaf at a position. -/
def symbolAt? (tree : SyntaxTree) (position : Nat) : Option Leaf := tree.symbols.find? position

/-- The steps that build the tree: one for each node, then the attributes of the root and every
position that is followed by one. -/
def steps (tree : SyntaxTree) : List Step :=
  tree.shape.steps ++
    [.properties tree.shape.nullable tree.shape.firstpos tree.shape.lastpos] ++
    (tree.follow.toList.filter fun p => !p.2.isEmpty).map fun p => .followpos p.1 p.2

end SyntaxTree

end FormalLang
