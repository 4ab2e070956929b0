import FormalLang.Automaton.Step

/-!
# Positions of an expression

The leaves of an expression are numbered from left to right, and every node gets four attributes
that say which positions a word of its language can begin with, end with, or have next to each
other:

* `nullable`: the empty word belongs to the language;
* `firstpos`, `lastpos`: the positions a word can begin or end with;
* `followpos p`: the positions that can come right after position `p`.

A leaf for the empty word has a position too, but that position is in none of the sets.
-/

namespace FormalLang

/-- **An expression with numbered leaves.** -/
inductive PositionTree where
  | leaf (symbol : Leaf) (position : Nat)
  | concat (left right : PositionTree)
  | union (left right : PositionTree)
  | star (inner : PositionTree)
  deriving DecidableEq

/-- The number of leaves. -/
def Regex.leafCount : Regex → Nat
  | .leaf _ => 1
  | .concat l r => l.leafCount + r.leafCount
  | .union l r => l.leafCount + r.leafCount
  | .star e => e.leafCount

/-- Numbers the leaves of an expression from `first` on. -/
def Regex.number : Regex → Nat → PositionTree
  | .leaf s, first => .leaf s first
  | .concat l r, first => .concat (l.number first) (r.number (first + l.leafCount))
  | .union l r, first => .union (l.number first) (r.number (first + l.leafCount))
  | .star e, first => .star (e.number first)

/-! ## 1. Attributes -/

/-- What is known about the words of a node: whether one is empty, and the positions that they can
begin and end with. -/
structure Attributes where
  nullable : Bool
  firstpos : OrderedSet Nat
  lastpos : OrderedSet Nat
  deriving DecidableEq

namespace Attributes

/-- The attributes of a leaf. -/
def ofLeaf (s : Leaf) (position : Nat) : Attributes :=
  if s = .epsilon then ⟨true, ∅, ∅⟩ else ⟨false, .singleton position, .singleton position⟩

/-- The attributes of a concatenation: a nullable operand lets the other one show through. -/
def concat (l r : Attributes) : Attributes where
  nullable := l.nullable && r.nullable
  firstpos := if l.nullable then l.firstpos ∪ r.firstpos else l.firstpos
  lastpos := if r.nullable then r.lastpos ∪ l.lastpos else r.lastpos

/-- The attributes of a union. -/
def union (l r : Attributes) : Attributes where
  nullable := l.nullable || r.nullable
  firstpos := l.firstpos ∪ r.firstpos
  lastpos := l.lastpos ∪ r.lastpos

/-- The attributes of a star. -/
def star (e : Attributes) : Attributes := { e with nullable := true }

end Attributes

namespace PositionTree

/-- The attributes of a tree. -/
def attributes : PositionTree → Attributes
  | .leaf s p => .ofLeaf s p
  | .concat l r => l.attributes.concat r.attributes
  | .union l r => l.attributes.union r.attributes
  | .star e => e.attributes.star

/-- Whether the empty word belongs to the language. -/
def nullable (t : PositionTree) : Bool := t.attributes.nullable

/-- The positions a word can begin with. -/
def firstpos (t : PositionTree) : OrderedSet Nat := t.attributes.firstpos

/-- The positions a word can end with. -/
def lastpos (t : PositionTree) : OrderedSet Nat := t.attributes.lastpos

/-- A table that says for each position which ones can follow it. -/
abbrev FollowTable := OrderedMap Nat (OrderedSet Nat)

/-- Lets every position of one set be followed by every position of another. -/
def link (table : FollowTable) (before after : OrderedSet Nat) : FollowTable :=
  before.toList.foldl (fun t p => t.alter p fun follow => follow.getD ∅ ∪ after) table

/-- The positions that can follow each position. -/
def followTable : PositionTree → FollowTable
  | .leaf s p => if s = .epsilon then ∅ else (∅ : FollowTable).insert p ∅
  | .concat l r => link (l.followTable.merge r.followTable) l.lastpos r.firstpos
  | .union l r => l.followTable.merge r.followTable
  | .star e => link e.followTable e.lastpos e.firstpos

/-- The leaf at each position. -/
def symbolTable : PositionTree → OrderedMap Nat Leaf
  | .leaf s p => (∅ : OrderedMap Nat Leaf).insert p s
  | .concat l r => l.symbolTable.merge r.symbolTable
  | .union l r => l.symbolTable.merge r.symbolTable
  | .star e => e.symbolTable

/-! ## 2. Drawing and steps -/

/-- The character that the root is drawn with. -/
def toChar : PositionTree → Char
  | .leaf s _ => s.toChar
  | .concat _ _ => Operator.concat.toChar
  | .union _ _ => Operator.union.toChar
  | .star _ => Operator.star.toChar

/-- The steps that build a tree, one for each node, in post-order. -/
def steps : PositionTree → List Step
  | .leaf s p => [.leaf s.toChar p]
  | .concat l r => l.steps ++ r.steps ++ [.treeConcat l.toChar r.toChar]
  | .union l r => l.steps ++ r.steps ++ [.treeUnion l.toChar r.toChar]
  | .star e => e.steps ++ [.treeStar e.toChar]

end PositionTree

/-! ## 3. Numbered nodes -/

/-- What a node is; children are named by their number. -/
inductive NodeKind where
  | leaf (symbol : Leaf) (position : Nat)
  | concat (left right : Nat)
  | union (left right : Nat)
  | star (child : Nat)
  deriving DecidableEq

/-- A node with its number and its attributes. -/
structure Node where
  id : Nat
  kind : NodeKind
  attributes : Attributes
  deriving DecidableEq

namespace Node

/-- Whether the empty word belongs to the language of the node. -/
def nullable (n : Node) : Bool := n.attributes.nullable

/-- The positions a word of the node can begin with. -/
def firstpos (n : Node) : OrderedSet Nat := n.attributes.firstpos

/-- The positions a word of the node can end with. -/
def lastpos (n : Node) : OrderedSet Nat := n.attributes.lastpos

end Node

namespace NodeKind

/-- The name of the kind. -/
def name : NodeKind → String
  | .leaf _ _ => "leaf"
  | .concat _ _ => "concat"
  | .union _ _ => "union"
  | .star _ => "star"

/-- The character a node is drawn with. -/
def toChar : NodeKind → Char
  | .leaf s _ => s.toChar
  | .concat _ _ => Operator.concat.toChar
  | .union _ _ => Operator.union.toChar
  | .star _ => Operator.star.toChar

/-- The position of a leaf. -/
def position? : NodeKind → Option Nat
  | .leaf _ p => some p
  | _ => none

/-- The left child, or the only child of a star. -/
def left? : NodeKind → Option Nat
  | .concat l _ => some l
  | .union l _ => some l
  | .star c => some c
  | .leaf _ _ => none

/-- The right child. -/
def right? : NodeKind → Option Nat
  | .concat _ r => some r
  | .union _ r => some r
  | .star _ => none
  | .leaf _ _ => none

end NodeKind

namespace PositionTree

/-- The number of nodes. -/
def nodeCount : PositionTree → Nat
  | .leaf _ _ => 1
  | .concat l r => l.nodeCount + r.nodeCount + 1
  | .union l r => l.nodeCount + r.nodeCount + 1
  | .star e => e.nodeCount + 1

/-- The nodes in post-order, numbered from `first` on.  The root of a part is its last node. -/
def nodesFrom : PositionTree → Nat → List Node
  | .leaf s p, first => [⟨first, .leaf s p, .ofLeaf s p⟩]
  | .concat l r, first =>
    let left := first + l.nodeCount
    let right := left + r.nodeCount
    l.nodesFrom first ++ r.nodesFrom left ++
      [⟨right, .concat (left - 1) (right - 1), (concat l r).attributes⟩]
  | .union l r, first =>
    let left := first + l.nodeCount
    let right := left + r.nodeCount
    l.nodesFrom first ++ r.nodesFrom left ++
      [⟨right, .union (left - 1) (right - 1), (union l r).attributes⟩]
  | .star e, first =>
    let child := first + e.nodeCount
    e.nodesFrom first ++ [⟨child, .star (child - 1), (star e).attributes⟩]

end PositionTree

end FormalLang
