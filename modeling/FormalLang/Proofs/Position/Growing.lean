import FormalLang.Proofs.Automaton.Interning
import FormalLang.Proofs.Position.Followpos
import FormalLang.Proofs.Regex.Machine

/-!
# Syntax trees grown from a listing

Here a syntax tree is grown while a listing is read.  Nodes are put into one list and name their
children by number, leaves take the positions in turn, and one table of following positions is
changed on the way.  There is a lapse where a node does not exist, and where a position that is to
be followed by others has no entry.  None occurs, and what is grown is the tree of the expression
(`TreeBuilder.build_eq`).

* **Nodes.**  The root of an operand is the last node that was made for it, and stays where it is
  while the nodes of the next operand are made (`TreeBuilder.exists_root`).
* **Entries.**  A position has an entry from the time that its leaf is made, unless the leaf is that
  of the empty word.  Such a position is in no set (`PositionTree.isSome_followTable`).

The followpos automaton is built from the tree with a lapse at a member of a state that is neither
the position of a character nor that of the end marker.  It has none either
(`SyntaxTree.construct_flat`).
-/

namespace FormalLang

/-- **A syntax tree without its shape**: the nodes in post-order, and the tables. -/
structure FlatTree where
  nodes : List Node
  /-- The number of the root. -/
  root : Nat
  follow : PositionTree.FollowTable
  symbols : OrderedMap Nat Leaf
  /-- The position of the end marker. -/
  endPosition : Nat
  deriving DecidableEq

/-- What is left of a syntax tree without its shape. -/
def SyntaxTree.flat (tree : SyntaxTree) : FlatTree :=
  ⟨tree.nodes, tree.root, tree.follow, tree.symbols, tree.endPosition⟩

/-- **A syntax tree in the making.** -/
structure TreeBuilder where
  nodes : List Node
  /-- The position that the next leaf takes. -/
  free : Nat
  follow : PositionTree.FollowTable
  symbols : OrderedMap Nat Leaf
  steps : List Step
  deriving DecidableEq

/-- The node with a number, out of a list of nodes. -/
def Node.lookUp (nodes : List Node) (id : Nat) : Except Lapse Node :=
  match nodes[id]? with
  | none => .error (.fault .missingNode)
  | some node => .ok node

namespace TreeBuilder

/-! ## 1. Growing a tree -/

/-- Adds a node, and tells its number. -/
def push (b : TreeBuilder) (kind : NodeKind) (attributes : Attributes) : TreeBuilder × Nat :=
  ({ b with nodes := b.nodes ++ [⟨b.nodes.length, kind, attributes⟩] }, b.nodes.length)

/-- Lets some positions be followed by others.  Each of them has to have an entry. -/
def addFollow (after : OrderedSet Nat) :
    PositionTree.FollowTable → List Nat → Except Lapse PositionTree.FollowTable
  | table, [] => .ok table
  | table, p :: rest =>
    match table.find? p with
    | none => .error .missingEntry
    | some follow => addFollow after (table.insert p (follow ∪ after)) rest

/-- Lets every position of one set be followed by every position of another. -/
def link (b : TreeBuilder) (before after : OrderedSet Nat) : Except Lapse TreeBuilder := do
  let follow ← addFollow after b.follow before.toList
  return { b with follow }

/-- Records a step. -/
def record (b : TreeBuilder) (step : Step) : TreeBuilder := { b with steps := b.steps ++ [step] }

/-- A leaf takes the next position.  It gets an entry unless it stands for the empty word. -/
def leaf (s : Leaf) (b : TreeBuilder) : Except Lapse (TreeBuilder × Nat) :=
  let grown : TreeBuilder :=
    { b with
      free := b.free + 1
      follow := if s = .epsilon then b.follow else b.follow.insert b.free ∅
      symbols := b.symbols.insert b.free s }
  .ok ((grown.record (.leaf s.toChar b.free)).push (.leaf s b.free) (.ofLeaf s b.free))

/-- What an operand ends with can be followed by what it begins with. -/
def star (child : Nat) (b : TreeBuilder) : Except Lapse (TreeBuilder × Nat) := do
  let inner ← Node.lookUp b.nodes child
  let b ← b.link inner.lastpos inner.firstpos
  return (b.record (.treeStar inner.kind.toChar)).push (.star child) inner.attributes.star

/-- What the first operand ends with can be followed by what the second one begins with. -/
def concat (left right : Nat) (b : TreeBuilder) : Except Lapse (TreeBuilder × Nat) := do
  let l ← Node.lookUp b.nodes left
  let r ← Node.lookUp b.nodes right
  let b ← b.link l.lastpos r.firstpos
  return (b.record (.treeConcat l.kind.toChar r.kind.toChar)).push (.concat left right)
    (l.attributes.concat r.attributes)

/-- Nothing new follows a position. -/
def union (left right : Nat) (b : TreeBuilder) : Except Lapse (TreeBuilder × Nat) := do
  let l ← Node.lookUp b.nodes left
  let r ← Node.lookUp b.nodes right
  return (b.record (.treeUnion l.kind.toChar r.kind.toChar)).push (.union left right)
    (l.attributes.union r.attributes)

/-- What is done at a leaf and at each operator. -/
def machine : OperandMachine TreeBuilder Nat := ⟨leaf, star, concat, union⟩

/-- The first position with the end marker. -/
def findEndMarker (symbols : OrderedMap Nat Leaf) : Except Lapse Nat :=
  match symbols.toList.find? fun p => decide (p.2 = .endMarker) with
  | none => .error .missingEndMarker
  | some (position, _) => .ok position

/-- The syntax tree of a listing that carries the end marker, and the steps that build it. -/
def build (listing : List Token) : Except Lapse (FlatTree × List Step) := do
  let text := String.ofList (listing.map Token.toChar)
  let (b, root) ← machine.read listing ⟨[], 1, ∅, ∅, [.listing text true]⟩
  let endPosition ← findEndMarker b.symbols
  let node ← Node.lookUp b.nodes root
  let steps := b.steps ++ [.properties node.nullable node.firstpos node.lastpos] ++
    (b.follow.toList.filter fun p => !p.2.isEmpty).map fun p => .followpos p.1 p.2
  return (⟨b.nodes, root, b.follow, b.symbols, endPosition⟩, steps)

end TreeBuilder

namespace FlatTree

/-- Adds what follows some positions to the moves found so far.  Each of them has to be the position
of a character or of the end marker, which has no moves. -/
def addMoves (tree : FlatTree) :
    OrderedMap Char Members → List Nat → Except Lapse (OrderedMap Char Members)
  | moves, [] => .ok moves
  | moves, p :: rest =>
    match tree.symbols.find? p with
    | some (.char c) =>
      let moves := moves.alter c fun target => target.getD ∅ ∪ (tree.follow.find? p).getD ∅
      tree.addMoves moves rest
    | some .endMarker => tree.addMoves moves rest
    | some .epsilon => .error .silentMember
    | none => .error .silentMember

/-- The moves out of a set of positions. -/
def tryPositionMoves (tree : FlatTree) (members : Members) :
    Except Lapse (List (Char × Members)) := do
  let moves ← tree.addMoves ∅ members.toList
  return moves.toList

/-- The followpos automaton, and the steps that build it. -/
def construct (tree : FlatTree) : Except Lapse (Dfa × List Step) := do
  let root ← Node.lookUp tree.nodes tree.root
  let (dfa, steps) ← DfaBuilder.explore tree.tryPositionMoves (tree.symbols.size + 1) root.firstpos
    fun members => decide (tree.endPosition ∈ members)
  return (dfa, steps ++ [.acceptStates dfa.accept.toList])

end FlatTree

/-! ## 2. Entries -/

namespace PositionTree

variable {l r t : PositionTree} {table : FollowTable} {p : Nat}

/-- Entries stay when positions are linked. -/
theorem isSome_foldl_alter {after : OrderedSet Nat} : ∀ {before : List Nat} {table : FollowTable},
    (table.find? p).isSome = true →
      ((before.foldl (fun t q => t.alter q fun follow => follow.getD ∅ ∪ after) table).find?
        p).isSome = true
  | [], _, h => h
  | first :: before, table, h => by
    rw [List.foldl_cons]
    refine isSome_foldl_alter ?_
    rw [OrderedMap.find?_alter]
    split
    · rfl
    · exact h

/-- **Every position of a leaf that reads something has an entry.** -/
theorem isSome_followTable : ∀ {t : PositionTree} {s : Leaf}, s ≠ .epsilon → (s, p) ∈ t.marks →
    (t.followTable.find? p).isSome = true
  | .leaf s' p', s, hs, h => by
    obtain ⟨rfl, rfl⟩ := Prod.mk.inj (List.mem_singleton.mp h)
    rw [followTable, if_neg hs, OrderedMap.find?_insert, if_pos rfl]
    rfl
  | .concat l r, s, hs, h => by
    refine isSome_foldl_alter (OrderedMap.isSome_merge_iff.mpr ?_)
    rcases List.mem_append.mp h with h | h
    · exact .inl (isSome_followTable hs h)
    · exact .inr (isSome_followTable hs h)
  | .union l r, s, hs, h => by
    rw [followTable, OrderedMap.isSome_merge_iff]
    rcases List.mem_append.mp h with h | h
    · exact .inl (isSome_followTable hs h)
    · exact .inr (isSome_followTable hs h)
  | .star e, s, hs, h => isSome_foldl_alter (isSome_followTable (t := e) hs h)

theorem isSome_followTable_of_lastpos (h : p ∈ t.lastpos) :
    (t.followTable.find? p).isSome = true := by
  obtain ⟨s, hs, hmark⟩ := exists_mark_of_attributes (.inr h)
  exact isSome_followTable hs hmark

/-- The sets of every node name positions of leaves that read something. -/
theorem exists_mark_of_node : ∀ {t : PositionTree} {first : Nat} {node : Node},
    node ∈ t.nodesFrom first → p ∈ node.firstpos ∨ p ∈ node.lastpos →
      ∃ s, s ≠ .epsilon ∧ (s, p) ∈ t.marks
  | .leaf s p', first, node, hnode, h => by
    obtain rfl := List.mem_singleton.mp hnode
    exact exists_mark_of_attributes (t := .leaf s p') h
  | .concat l r, first, node, hnode, h => by
    rcases List.mem_append.mp hnode with hnode | hnode
    · rcases List.mem_append.mp hnode with hnode | hnode
      · obtain ⟨s, hs, hmark⟩ := exists_mark_of_node hnode h
        exact ⟨s, hs, List.mem_append_left _ hmark⟩
      · obtain ⟨s, hs, hmark⟩ := exists_mark_of_node hnode h
        exact ⟨s, hs, List.mem_append_right _ hmark⟩
    · obtain rfl := List.mem_singleton.mp hnode
      exact exists_mark_of_attributes (t := .concat l r) h
  | .union l r, first, node, hnode, h => by
    rcases List.mem_append.mp hnode with hnode | hnode
    · rcases List.mem_append.mp hnode with hnode | hnode
      · obtain ⟨s, hs, hmark⟩ := exists_mark_of_node hnode h
        exact ⟨s, hs, List.mem_append_left _ hmark⟩
      · obtain ⟨s, hs, hmark⟩ := exists_mark_of_node hnode h
        exact ⟨s, hs, List.mem_append_right _ hmark⟩
    · obtain rfl := List.mem_singleton.mp hnode
      exact exists_mark_of_attributes (t := .union l r) h
  | .star e, first, node, hnode, h => by
    rcases List.mem_append.mp hnode with hnode | hnode
    · exact exists_mark_of_node (t := e) hnode h
    · obtain rfl := List.mem_singleton.mp hnode
      exact exists_mark_of_attributes (t := .star e) h

@[simp] theorem length_nodesFrom : ∀ (t : PositionTree) (first : Nat),
    (t.nodesFrom first).length = t.nodeCount
  | .leaf _ _, _ => rfl
  | .concat l r, first => by
    simp only [nodesFrom, nodeCount, List.length_append, List.length_singleton, length_nodesFrom l,
      length_nodesFrom r]
  | .union l r, first => by
    simp only [nodesFrom, nodeCount, List.length_append, List.length_singleton, length_nodesFrom l,
      length_nodesFrom r]
  | .star e, first => by
    simp only [nodesFrom, nodeCount, List.length_append, List.length_singleton, length_nodesFrom e]

/-- The root of a tree is its last node. -/
theorem exists_root (t : PositionTree) (first : Nat) : ∃ front root,
    t.nodesFrom first = front ++ [root] ∧ front.length + 1 = t.nodeCount ∧
      root.attributes = t.attributes ∧ root.kind.toChar = t.toChar := by
  cases t with
  | leaf s p => exact ⟨[], _, rfl, rfl, rfl, rfl⟩
  | concat l r => exact ⟨_, _, rfl, by simp [nodeCount], rfl, rfl⟩
  | union l r => exact ⟨_, _, rfl, by simp [nodeCount], rfl, rfl⟩
  | star e => exact ⟨_, _, rfl, by simp [nodeCount], rfl, rfl⟩

end PositionTree

/-! ## 3. What has been grown -/

namespace TreeBuilder

variable {b : TreeBuilder}

/-- **The builder after the tree of an expression has been grown.** -/
def after (b : TreeBuilder) (e : Regex) : TreeBuilder where
  nodes := b.nodes ++ (e.number b.free).nodesFrom b.nodes.length
  free := b.free + e.leafCount
  follow := b.follow.merge (e.number b.free).followTable
  symbols := b.symbols.merge (e.number b.free).symbolTable
  steps := b.steps ++ (e.number b.free).steps

/-- The number of the root of that tree. -/
def rootOf (b : TreeBuilder) (e : Regex) : Nat :=
  b.nodes.length + (e.number b.free).nodeCount - 1

/-- **The root is found under its number**, whatever nodes come behind it. -/
theorem exists_root (b : TreeBuilder) (e : Regex) (more : List Node) :
    ∃ root, Node.lookUp ((b.after e).nodes ++ more) (b.rootOf e) = .ok root ∧
      root.attributes = (e.number b.free).attributes ∧
      root.kind.toChar = (e.number b.free).toChar := by
  obtain ⟨front, root, hnodes, hlength, hattributes, hchar⟩ :=
    (e.number b.free).exists_root b.nodes.length
  have hroot : b.rootOf e = (b.nodes ++ front).length := by
    rw [rootOf, List.length_append]
    omega
  refine ⟨root, ?_, hattributes, hchar⟩
  rw [Node.lookUp, after, hnodes, hroot]
  simp

/-- Positions with an entry are linked as they are in a table of their own. -/
theorem addFollow_merge (table : PositionTree.FollowTable) {after : OrderedSet Nat} :
    ∀ {before : List Nat} {own : PositionTree.FollowTable},
      (∀ p ∈ before, (own.find? p).isSome = true) →
      addFollow after (table.merge own) before = .ok (table.merge
        (before.foldl (fun t p => t.alter p fun follow => follow.getD ∅ ∪ after) own))
  | [], own, _ => rfl
  | p :: before, own, h => by
    obtain ⟨follow, hfollow⟩ := Option.isSome_iff_exists.mp (h p List.mem_cons_self)
    have hmerged : (table.merge own).find? p = some follow := by
      rw [OrderedMap.find?_merge, hfollow]
      rfl
    have hchanged : (table.merge own).insert p (follow ∪ after) =
        table.merge (own.alter p fun follow => follow.getD ∅ ∪ after) := by
      refine OrderedMap.ext fun q => ?_
      rw [OrderedMap.find?_insert, OrderedMap.find?_merge, OrderedMap.find?_merge,
        OrderedMap.find?_alter, hfollow]
      split
      · rfl
      · rfl
    rw [addFollow, hmerged, List.foldl_cons]
    dsimp only
    rw [hchanged]
    refine addFollow_merge table fun q hq => ?_
    exact @PositionTree.isSome_foldl_alter q after [p] own (h q (List.mem_cons_of_mem _ hq))

theorem leaf_after (b : TreeBuilder) (s : Leaf) :
    leaf s b = .ok (b.after (.leaf s), b.rootOf (.leaf s)) := by
  have hfollow : (if s = .epsilon then b.follow else b.follow.insert b.free ∅) =
      b.follow.merge (PositionTree.leaf s b.free).followTable := by
    unfold PositionTree.followTable
    split
    · rfl
    · exact OrderedMap.insert_eq_merge _ _ _
  have hsymbols : b.symbols.insert b.free s =
      b.symbols.merge (PositionTree.leaf s b.free).symbolTable := OrderedMap.insert_eq_merge _ _ _
  rw [leaf, hfollow, hsymbols]
  rfl

theorem link_eq {table own : PositionTree.FollowTable} {before after : OrderedSet Nat}
    (hfollow : b.follow = table.merge own)
    (hentries : ∀ p ∈ before, (own.find? p).isSome = true) :
    b.link before after =
      .ok { b with follow := table.merge (PositionTree.link own before after) } := by
  have hadded := @addFollow_merge table after before.toList own hentries
  rw [link, hfollow]
  simp only [bind, Except.bind, hadded]
  rfl

theorem star_after (b : TreeBuilder) (e : Regex) :
    star (b.rootOf e) (b.after e) = .ok (b.after (.star e), b.rootOf (.star e)) := by
  obtain ⟨root, hroot, hattributes, hchar⟩ := b.exists_root e []
  rw [List.append_nil] at hroot
  have hlast : root.lastpos = (e.number b.free).lastpos := congrArg Attributes.lastpos hattributes
  have hfirst : root.firstpos = (e.number b.free).firstpos :=
    congrArg Attributes.firstpos hattributes
  have hlink := @link_eq (b.after e) _ _ (e.number b.free).lastpos (e.number b.free).firstpos rfl
    fun p hp => PositionTree.isSome_followTable_of_lastpos hp
  simp only [star, hroot, bind, Except.bind, hlast, hfirst, hlink, hattributes, hchar]
  simp only [push, record, after, rootOf, Regex.number, PositionTree.nodesFrom, List.length_append,
    PositionTree.length_nodesFrom, List.append_assoc, PositionTree.steps, Regex.leafCount]
  rfl

theorem concat_after (b : TreeBuilder) (l r : Regex) :
    concat (b.rootOf l) ((b.after l).rootOf r) ((b.after l).after r) =
      .ok (b.after (.concat l r), b.rootOf (.concat l r)) := by
  obtain ⟨left, hleft, hattributes, hchar⟩ := b.exists_root l
    ((r.number (b.after l).free).nodesFrom (b.after l).nodes.length)
  obtain ⟨right, hright, hattributes', hchar'⟩ := (b.after l).exists_root r []
  rw [List.append_nil] at hright
  have hlast : left.lastpos = (l.number b.free).lastpos := congrArg Attributes.lastpos hattributes
  have hfirst : right.firstpos = (r.number (b.after l).free).firstpos :=
    congrArg Attributes.firstpos hattributes'
  have hleft : Node.lookUp ((b.after l).after r).nodes (b.rootOf l) = .ok left := hleft
  have hlink := @link_eq ((b.after l).after r) _ _ (l.number b.free).lastpos
    (r.number (b.after l).free).firstpos (OrderedMap.merge_assoc _ _ _) fun p hp =>
      OrderedMap.isSome_merge_iff.mpr (.inl (PositionTree.isSome_followTable_of_lastpos hp))
  simp only [concat, hleft, hright, bind, Except.bind, hlast, hfirst, hlink, hattributes, hchar,
    hattributes', hchar']
  simp only [push, record, after, rootOf, Regex.number, PositionTree.nodesFrom, List.length_append,
    PositionTree.length_nodesFrom, List.append_assoc, PositionTree.steps, Regex.leafCount,
    PositionTree.symbolTable, OrderedMap.merge_assoc, Nat.add_assoc]
  rfl

theorem union_after (b : TreeBuilder) (l r : Regex) :
    union (b.rootOf l) ((b.after l).rootOf r) ((b.after l).after r) =
      .ok (b.after (.union l r), b.rootOf (.union l r)) := by
  obtain ⟨left, hleft, hattributes, hchar⟩ := b.exists_root l
    ((r.number (b.after l).free).nodesFrom (b.after l).nodes.length)
  obtain ⟨right, hright, hattributes', hchar'⟩ := (b.after l).exists_root r []
  rw [List.append_nil] at hright
  have hleft : Node.lookUp ((b.after l).after r).nodes (b.rootOf l) = .ok left := hleft
  simp only [union, hleft, hright, bind, Except.bind, hattributes, hchar, hattributes', hchar']
  simp only [push, record, after, rootOf, Regex.number, PositionTree.nodesFrom, List.length_append,
    PositionTree.length_nodesFrom, List.append_assoc, PositionTree.steps, Regex.leafCount,
    PositionTree.symbolTable, PositionTree.followTable, OrderedMap.merge_assoc, Nat.add_assoc]
  rfl

/-- **Every node is found and every position has its entry**, and what is grown is the tree of the
expression. -/
theorem ofRegex_after : ∀ (e : Regex) (b : TreeBuilder),
    machine.ofRegex e b = .ok (b.after e, b.rootOf e)
  | .leaf s, b => b.leaf_after s
  | .concat l r, b => by
    rw [OperandMachine.ofRegex_concat (ofRegex_after l b) (ofRegex_after r (b.after l))]
    exact b.concat_after l r
  | .union l r, b => by
    rw [OperandMachine.ofRegex_union (ofRegex_after l b) (ofRegex_after r (b.after l))]
    exact b.union_after l r
  | .star e, b => by
    rw [OperandMachine.ofRegex_star (ofRegex_after e b)]
    exact b.star_after e

theorem findEndMarker_eq {symbols : OrderedMap Nat Leaf} {p : Nat}
    (h : symbols.find? p = some .endMarker) :
    findEndMarker symbols = .ok (SyntaxTree.endPositionOf symbols) := by
  unfold findEndMarker SyntaxTree.endPositionOf
  cases hfind : symbols.toList.find? fun entry => decide (entry.2 = Leaf.endMarker) with
  | none =>
    have hnot := List.find?_eq_none.mp hfind _ (OrderedMap.mem_toList.mpr h)
    simp at hnot
  | some entry => rfl

/-- The builder after a whole listing. -/
theorem after_begin (e : Regex) (steps : List Step) :
    after ⟨[], 1, ∅, ∅, steps⟩ e = ⟨(SyntaxTree.ofRegex e).nodes, 1 + e.leafCount,
      (SyntaxTree.ofRegex e).follow, (SyntaxTree.ofRegex e).symbols,
      steps ++ (e.number 1).steps⟩ := by
  rw [after, OrderedMap.empty_merge, OrderedMap.empty_merge]
  rfl

theorem rootOf_begin (e : Regex) (steps : List Step) :
    rootOf ⟨[], 1, ∅, ∅, steps⟩ e = (SyntaxTree.ofRegex e).root := by
  rw [rootOf, List.length_nil, Nat.zero_add]
  rfl

/-- The root of a syntax tree is found. -/
theorem exists_root_ofRegex (e : Regex) : ∃ root : Node,
    Node.lookUp (SyntaxTree.ofRegex e).nodes (SyntaxTree.ofRegex e).root = .ok root ∧
      root.attributes = (e.number 1).attributes := by
  obtain ⟨root, hroot, hattributes, -⟩ := exists_root ⟨[], 1, ∅, ∅, []⟩ e []
  rw [List.append_nil, after_begin, rootOf_begin] at hroot
  exact ⟨root, hroot, hattributes⟩

/-- **A syntax tree is grown without a lapse** from the listing of an expression that carries the
end marker, and it is the tree of the expression. -/
theorem build_eq {p : Postfix} (h : p.items.map Item.entry = p.expression.listing)
    (hend : Leaf.endMarker ∈ p.expression.leaves) :
    build p.tokens = .ok ((SyntaxTree.ofRegex p.expression).flat,
      .listing p.text true :: (SyntaxTree.ofRegex p.expression).steps) := by
  have hgrown := ofRegex_after p.expression ⟨[], 1, ∅, ∅, [.listing p.text true]⟩
  have hread : machine.read p.tokens ⟨[], 1, ∅, ∅, [.listing p.text true]⟩ = _ :=
    (machine.read_tokens h _).trans hgrown
  obtain ⟨root, hroot, hattributes⟩ := exists_root_ofRegex p.expression
  obtain ⟨i, hi⟩ := List.getElem?_of_mem hend
  have hmark : (Leaf.endMarker, 1 + i) ∈ (p.expression.number 1).marks := by
    rw [PositionTree.marks_number, List.mem_iff_getElem?]
    exact ⟨i, by rw [List.getElem?_zipIdx, hi]; rfl⟩
  have hmarker := findEndMarker_eq (SyntaxTree.symbolAt?_ofRegex_iff.mpr hmark)
  rw [after_begin, rootOf_begin, Postfix.text_eq] at hread
  rw [Postfix.text_eq]
  simp only [build, hread, bind, Except.bind, hmarker, hroot, Node.nullable, Node.firstpos,
    Node.lastpos, hattributes]
  rfl

end TreeBuilder

/-! ## 4. The followpos automaton -/

namespace SyntaxTree

/-- Whether a character or the end marker is read at a position. -/
def Reads (tree : SyntaxTree) (p : Nat) : Prop := ∃ s, s ≠ .epsilon ∧ tree.symbolAt? p = some s

variable {tree : SyntaxTree} {e : Regex} {p : Nat}

theorem addMoves_flat : ∀ {ps : List Nat} {moves : OrderedMap Char Members},
    (∀ p ∈ ps, tree.Reads p) →
      tree.flat.addMoves moves ps = .ok (ps.foldl tree.addMoves moves)
  | [], _, _ => rfl
  | p :: ps, moves, h => by
    obtain ⟨s, hs, hsymbol⟩ := h p List.mem_cons_self
    have hrest := fun moves => @addMoves_flat ps moves fun q hq => h q (List.mem_cons_of_mem _ hq)
    have hfound : tree.flat.symbols.find? p = some s := hsymbol
    rw [FlatTree.addMoves, hfound, List.foldl_cons, SyntaxTree.addMoves, hsymbol]
    cases s with
    | char c => exact hrest _
    | epsilon => exact absurd rfl hs
    | endMarker => exact hrest _

/-- The positions where a character or the end marker is read. -/
def readable (tree : SyntaxTree) : List Nat :=
  tree.symbols.keys.filter fun p => decide (tree.symbolAt? p ≠ some .epsilon)

theorem mem_readable_iff : p ∈ tree.readable ↔ tree.Reads p := by
  rw [readable, List.mem_filter, OrderedMap.mem_keys, OrderedMap.contains, decide_eq_true_eq,
    Option.isSome_iff_exists]
  constructor
  · rintro ⟨⟨s, hs⟩, hne⟩
    exact ⟨s, fun heq => hne (heq ▸ hs), hs⟩
  · rintro ⟨s, hne, hs⟩
    refine ⟨⟨s, hs⟩, fun hepsilon => hne ?_⟩
    exact Option.some.inj (hs.symm.trans hepsilon)

theorem reads_of_mark {s : Leaf} (hs : s ≠ .epsilon) (h : (s, p) ∈ (e.number 1).marks) :
    (ofRegex e).Reads p := ⟨s, hs, symbolAt?_ofRegex_iff.mpr h⟩

theorem reads_of_firstpos (h : p ∈ (e.number 1).firstpos) : (ofRegex e).Reads p := by
  obtain ⟨s, hs, hmark⟩ := PositionTree.exists_mark_of_attributes (.inl h)
  exact reads_of_mark hs hmark

/-- **Moves lead to positions where something is read.** -/
theorem reads_of_positionMoves {s t : Members} {c : Char}
    (move : (c, t) ∈ (ofRegex e).positionMoves s) (h : p ∈ t) : (ofRegex e).Reads p := by
  obtain ⟨q, -, -, hfollow⟩ := (mem_iff_of_positionMoves move).mp h
  obtain ⟨s, hs, hmark⟩ := ((mem_followpos_ofRegex_iff e q p).mp hfollow).exists_mark
  exact reads_of_mark hs hmark

theorem length_readable_le (tree : SyntaxTree) : tree.readable.length ≤ tree.symbols.size + 1 := by
  have hfilter : tree.readable.length ≤ tree.symbols.keys.length := List.length_filter_le _ _
  rw [OrderedMap.keys, List.length_map] at hfilter
  exact Nat.le_succ_of_le hfilter

theorem closed_positionMoves (e : Regex) : ∀ s : Members, (∀ x ∈ s, x ∈ (ofRegex e).readable) →
    ∀ c t, (c, t) ∈ (ofRegex e).positionMoves s → ∀ x ∈ t, x ∈ (ofRegex e).readable :=
  fun _ _ _ _ move _ hx => mem_readable_iff.mpr (reads_of_positionMoves move hx)

theorem firstpos_readable (e : Regex) : ∀ x ∈ (e.number 1).firstpos, x ∈ (ofRegex e).readable :=
  fun _ hx => mem_readable_iff.mpr (reads_of_firstpos hx)

/-- **The members of every state are positions where something is read.** -/
theorem reads_of_mem_found {s : Members} (hs : s ∈ (ofRegex e).exploration.found) (hp : p ∈ s) :
    (ofRegex e).Reads p := by
  obtain ⟨hsound, -⟩ := Exploration.sound_run (closed_positionMoves e) (firstpos_readable e)
    (length_readable_le (ofRegex e))
  exact mem_readable_iff.mp (hsound.within s hs p hp)

/-- **The followpos automaton is built without a lapse** from the tree of an expression. -/
theorem construct_flat (e : Regex) : (ofRegex e).flat.construct =
    .ok ((ofRegex e).toDfa, (ofRegex e).exploration.steps (e.number 1).firstpos ++
      [.acceptStates (ofRegex e).toDfa.accept.toList]) := by
  have hcomputed : ∀ s : Members, (∀ x ∈ s, x ∈ (ofRegex e).readable) →
      (ofRegex e).flat.tryPositionMoves s = .ok ((ofRegex e).positionMoves s) := by
    intro s hs
    have hadded := @addMoves_flat (ofRegex e) s.toList ∅ fun p hp => mem_readable_iff.mp (hs p hp)
    rw [FlatTree.tryPositionMoves, hadded]
    rfl
  have hexplored : DfaBuilder.explore (ofRegex e).flat.tryPositionMoves
      ((ofRegex e).flat.symbols.size + 1) (e.number 1).firstpos
      (fun members => decide ((ofRegex e).flat.endPosition ∈ members)) =
        .ok ((ofRegex e).toDfa, (ofRegex e).exploration.steps (e.number 1).firstpos) :=
    Exploration.explore_eq positionMoves_unique hcomputed (closed_positionMoves e)
      (firstpos_readable e) (length_readable_le (ofRegex e)) _
  obtain ⟨root, hroot, hattributes⟩ := TreeBuilder.exists_root_ofRegex e
  have hroot : Node.lookUp (ofRegex e).flat.nodes (ofRegex e).flat.root = .ok root := hroot
  have hfirst : root.firstpos = (e.number 1).firstpos := congrArg Attributes.firstpos hattributes
  rw [FlatTree.construct, hroot]
  simp only [bind, Except.bind, hfirst, hexplored]
  rfl

end SyntaxTree

end FormalLang
