import FormalLang.Proofs.Conversion.Quotient
import FormalLang.Proofs.Conversion.Trim
import FormalLang.Proofs.Regex.Partners

/-!
# Syntax trees in post-order

The tree of a text is a list of numbered nodes that name their children, and tables beside it.  Both
are put together piece by piece, and both are in order (`syntaxTree_wellFormed`).

* **One parent each.**  Operands that no operator has taken yet are trees side by side.  Each node
  of such a forest is a child once or is one of the roots (`Node.Forest`).  An operator takes all
  roots of its operands, and its own node is the root that is left (`Node.Forest.push`).
* **Reading order.**  The leaves of an expression are the leaves among the characters of its text,
  from left to right, and positions count them (`TextExpresses.leaves_eq`).
* **Entries.**  Only positions that read something have an entry (`exists_mark_of_isSome`), and
  something follows each of them but the end marker, since from each a word leads to the end.
-/

namespace FormalLang

/-! ## 1. Forests -/

namespace NodeKind

/-- The numbers of the children, from left to right. -/
def children : NodeKind → List Nat
  | .leaf _ _ => []
  | .concat l r => [l, r]
  | .union l r => [l, r]
  | .star c => [c]

/-- A leaf and its position. -/
def mark? : NodeKind → Option (Leaf × Nat)
  | .leaf s p => some (s, p)
  | _ => none

theorem position?_eq_some_iff {kind : NodeKind} {p : Nat} :
    kind.position? = some p ↔ ∃ s, kind = .leaf s p := by
  cases kind <;> simp [position?]

theorem mark?_eq_some_iff {kind : NodeKind} {s : Leaf} {p : Nat} :
    kind.mark? = some (s, p) ↔ kind = .leaf s p := by
  cases kind <;> simp [mark?]

end NodeKind

namespace Node

/-- **Trees side by side**, numbered from `first` on.  Children come before their parents, and every
node is a child once or is a root once. -/
structure Forest (first : Nat) (roots : List Nat) (nodes : List Node) : Prop where
  ids : nodes.map Node.id = List.range' first nodes.length
  children_lt : ∀ node ∈ nodes, ∀ child ∈ node.kind.children, child < node.id
  once : ((nodes.flatMap fun node => node.kind.children) ++ roots).Perm (nodes.map Node.id)

namespace Forest

variable {first : Nat} {roots roots' : List Nat} {nodes nodes' : List Node}

theorem nil (first : Nat) : Forest first [] [] := ⟨rfl, nofun, .nil⟩

theorem root_lt (h : Forest first roots nodes) {root : Nat} (hroot : root ∈ roots) :
    root < first + nodes.length := by
  have hmem := h.once.mem_iff.mp (List.mem_append_right _ hroot)
  rw [h.ids, List.mem_range'_1] at hmem
  exact hmem.2

theorem append (h : Forest first roots nodes)
    (h' : Forest (first + nodes.length) roots' nodes') :
    Forest first (roots ++ roots') (nodes ++ nodes') where
  ids := by rw [List.map_append, h.ids, h'.ids, List.range'_append_1, List.length_append]
  children_lt := by
    intro node hnode
    rcases List.mem_append.mp hnode with hnode | hnode
    · exact h.children_lt node hnode
    · exact h'.children_lt node hnode
  once := by
    rw [List.flatMap_append, List.map_append, List.append_assoc]
    -- the roots of the first part go before the children of the second one
    have hswap := List.perm_append_comm_assoc (nodes'.flatMap fun node => node.kind.children)
      roots roots'
    refine .trans (hswap.append_left _) ?_
    rw [← List.append_assoc]
    exact h.once.append h'.once

/-- **An operator takes all roots of its operands.** -/
theorem push (h : Forest first roots nodes) (node : Node)
    (hid : node.id = first + nodes.length) (hchildren : node.kind.children = roots) :
    Forest first [node.id] (nodes ++ [node]) where
  ids := by
    rw [List.map_append, h.ids, List.length_append, List.length_singleton, List.range'_1_concat,
      List.map_singleton, hid]
  children_lt := by
    intro other hother child hchild
    rcases List.mem_append.mp hother with hother | hother
    · exact h.children_lt other hother child hchild
    · obtain rfl := List.mem_singleton.mp hother
      rw [hchildren] at hchild
      exact hid ▸ h.root_lt hchild
  once := by
    rw [List.flatMap_append, List.flatMap_singleton, hchildren, List.map_append]
    exact h.once.append_right _

end Forest

end Node

namespace PositionTree

variable {p : Nat}

/-- Two trees side by side become one under an operator. -/
theorem forest_join {l r : PositionTree} {first : Nat} {kind : NodeKind} {attributes : Attributes}
    (hl : Node.Forest first [first + l.nodeCount - 1] (l.nodesFrom first))
    (hr : Node.Forest (first + l.nodeCount) [first + l.nodeCount + r.nodeCount - 1]
      (r.nodesFrom (first + l.nodeCount)))
    (hchildren : kind.children =
      [first + l.nodeCount - 1, first + l.nodeCount + r.nodeCount - 1]) :
    Node.Forest first [first + (l.nodeCount + r.nodeCount + 1) - 1]
      (l.nodesFrom first ++ r.nodesFrom (first + l.nodeCount) ++
        [⟨first + l.nodeCount + r.nodeCount, kind, attributes⟩]) := by
  have hroot : first + (l.nodeCount + r.nodeCount + 1) - 1 = first + l.nodeCount + r.nodeCount := by
    omega
  rw [← length_nodesFrom l first] at hr
  have hboth := hl.append hr
  rw [length_nodesFrom] at hboth
  rw [hroot]
  refine hboth.push ⟨_, kind, attributes⟩ ?_ hchildren
  rw [List.length_append, length_nodesFrom, length_nodesFrom, Nat.add_assoc]

/-- **The nodes of a tree are a forest of one tree.** -/
theorem forest_nodesFrom : ∀ (t : PositionTree) (first : Nat),
    Node.Forest first [first + t.nodeCount - 1] (t.nodesFrom first)
  | .leaf s p, first => (Node.Forest.nil first).push ⟨first, .leaf s p, .ofLeaf s p⟩ rfl rfl
  | .concat l r, first => forest_join (forest_nodesFrom l first) (forest_nodesFrom r _) rfl
  | .union l r, first => forest_join (forest_nodesFrom l first) (forest_nodesFrom r _) rfl
  | .star e, first => by
    refine (forest_nodesFrom e first).push
      ⟨first + e.nodeCount, .star _, (star e).attributes⟩ ?_ rfl
    rw [length_nodesFrom]

/-! ## 2. Leaves -/

/-- The leaves in post-order are the leaves from left to right. -/
theorem filterMap_nodesFrom : ∀ (t : PositionTree) (first : Nat),
    (t.nodesFrom first).filterMap (fun node => node.kind.mark?) = t.marks
  | .leaf _ _, _ => rfl
  | .concat l r, first => by
    rw [nodesFrom, List.filterMap_append, List.filterMap_append, filterMap_nodesFrom l,
      filterMap_nodesFrom r, marks]
    exact List.append_nil _
  | .union l r, first => by
    rw [nodesFrom, List.filterMap_append, List.filterMap_append, filterMap_nodesFrom l,
      filterMap_nodesFrom r, marks]
    exact List.append_nil _
  | .star e, first => by
    rw [nodesFrom, List.filterMap_append, filterMap_nodesFrom e, marks]
    exact List.append_nil _

theorem mem_marks_iff_exists_node {t : PositionTree} (first : Nat) {s : Leaf} :
    (s, p) ∈ t.marks ↔ ∃ node ∈ t.nodesFrom first, node.kind = .leaf s p := by
  rw [← filterMap_nodesFrom t first, List.mem_filterMap]
  simp only [NodeKind.mark?_eq_some_iff]

/-- Linking positions adds entries to the first ones only. -/
theorem mem_or_isSome_of_isSome_link {table : FollowTable} {before after : OrderedSet Nat}
    (h : ((link table before after).find? p).isSome = true) :
    p ∈ before ∨ (table.find? p).isSome = true := by
  by_cases hp : p ∈ before
  · exact .inl hp
  · rw [link, find?_foldl_alter hp] at h
    exact .inr h

/-- **Only leaves that read something have an entry.** -/
theorem exists_mark_of_isSome : ∀ {t : PositionTree}, (t.followTable.find? p).isSome = true →
    ∃ s, s ≠ .epsilon ∧ (s, p) ∈ t.marks
  | .leaf s p', h => by
    unfold followTable at h
    split at h
    · simp at h
    · rename_i hs
      rw [OrderedMap.find?_insert] at h
      split at h
      · rename_i hp
        exact ⟨s, hs, hp ▸ List.mem_cons_self⟩
      · simp at h
  | .concat l r, h => by
    rcases mem_or_isSome_of_isSome_link h with hlast | h
    · obtain ⟨s, hs, hmark⟩ := exists_mark_of_attributes (.inr hlast)
      exact ⟨s, hs, List.mem_append_left _ hmark⟩
    rcases OrderedMap.isSome_merge_iff.mp h with h | h
    · exact (exists_mark_of_isSome h).imp fun _ => .imp_right (List.mem_append_left _)
    · exact (exists_mark_of_isSome h).imp fun _ => .imp_right (List.mem_append_right _)
  | .union l r, h => by
    rcases OrderedMap.isSome_merge_iff.mp h with h | h
    · exact (exists_mark_of_isSome h).imp fun _ => .imp_right (List.mem_append_left _)
    · exact (exists_mark_of_isSome h).imp fun _ => .imp_right (List.mem_append_right _)
  | .star e, h => by
    rcases mem_or_isSome_of_isSome_link h with hlast | h
    · exact exists_mark_of_attributes (t := e) (.inr hlast)
    · exact exists_mark_of_isSome (t := e) h

end PositionTree

/-! ## 3. Reading order -/

/-- The leaf that a character of a text is.  Parentheses and operators are none. -/
def Leaf.ofChar? (c : Char) : Option Leaf :=
  if c ∈ ['(', ')', '|', '*'] then none
  else some (if c = epsilonChar then .epsilon else .char c)

/-- The leaf that a token is. -/
def TokenKind.leaf? : TokenKind → Option Leaf
  | .leaf s => some s
  | _ => none

theorem CharIs.leaf?_eq {c : Char} {k : TokenKind} (h : CharIs c k) :
    k.leaf? = Leaf.ofChar? c := by
  cases h with
  | openParen => decide
  | closeParen => decide
  | union => decide
  | star => decide
  | epsilon => decide
  | char halphanumeric hne =>
    have hother : ∀ d ∈ ['(', ')', '|', '*'], Text.isAlphanumeric d = false :=
      List.forall_iff_forall_mem.mp (by decide)
    have hletter : c ∉ ['(', ')', '|', '*'] := fun hc =>
      Text.ne_of_isAlphanumeric halphanumeric (hother c hc) rfl
    rw [Leaf.ofChar?, if_neg hletter, if_neg hne]
    rfl

theorem filterMap_leaf?_of_forall₂ {cs : List Char} {ks : List TokenKind}
    (h : List.Forall₂ CharIs cs ks) : ks.filterMap TokenKind.leaf? = cs.filterMap Leaf.ofChar? := by
  induction h with
  | nil => rfl
  | cons hc _ ih => rw [List.filterMap_cons, List.filterMap_cons, hc.leaf?_eq, ih]

/-- **The leaves of an expression are those among its tokens**, in order. -/
theorem Written.filterMap_leaf? {phrase : Phrase} {ks : List TokenKind} {e : Regex}
    (h : Written phrase ks e) : ks.filterMap TokenKind.leaf? = e.leaves := by
  induction h with
  | leaf s => rfl
  | @group ks e _ ih =>
    have hclosed : (TokenKind.openParen :: (ks ++ [.closeParen])).filterMap TokenKind.leaf? =
        ks.filterMap TokenKind.leaf? ++ [] := List.filterMap_append
    rw [hclosed, List.append_nil, ih]
  | ofAtom _ ih => exact ih
  | star _ ih =>
    rw [List.filterMap_append, ih]
    exact List.append_nil _
  | ofFactor _ ih => exact ih
  | concat _ _ ihl ihr => rw [List.filterMap_append, ihl, ihr, Regex.leaves]
  | ofTerm _ ih => exact ih
  | @union _ ks' _ _ _ _ ihl ihr =>
    have hbehind : (TokenKind.operator .union :: ks').filterMap TokenKind.leaf? =
        ks'.filterMap TokenKind.leaf? := rfl
    rw [List.filterMap_append, hbehind, ihl, ihr, Regex.leaves]

/-- **The leaves of an expression are the leaves of its text**, in reading order. -/
theorem TextExpresses.leaves_eq {cs : List Char} {e : Regex} (h : TextExpresses cs e) :
    e.leaves = cs.filterMap Leaf.ofChar? := by
  obtain ⟨ks, hkinds, hwritten⟩ := h
  rw [← hwritten.filterMap_leaf?, filterMap_leaf?_of_forall₂ hkinds]

/-! ## 4. The tree and its tables -/

namespace SyntaxTree

/-- **A syntax tree in order**, for an expression with the given leaves and the end marker behind
it. -/
structure WellFormed (tree : SyntaxTree) (leaves : List Leaf) : Prop where
  /-- Every node has the number of its place. -/
  ids : tree.nodes.map Node.id = List.range tree.nodes.length
  /-- The root is the last node. -/
  root_last : tree.root + 1 = tree.nodes.length
  children_lt : ∀ node ∈ tree.nodes, ∀ child ∈ node.kind.children, child < node.id
  /-- The children of all nodes are the nodes before the root, each of them once. -/
  children_once :
    (tree.nodes.flatMap fun node => node.kind.children).Perm (List.range tree.root)
  /-- The leaves have the positions from one on. -/
  marks : tree.nodes.filterMap (fun node => node.kind.mark?) =
    (leaves ++ [Leaf.endMarker]).zipIdx 1
  endPosition_eq : tree.endPosition = leaves.length + 1
  /-- One leaf has the last position.  It is the end marker, and the right child of the root. -/
  end_marker : ∃ root, tree.getNode tree.root = .ok root ∧ ∃ marker ∈ tree.nodes,
    root.kind.right? = some marker.id ∧ marker.kind = .leaf .endMarker tree.endPosition ∧
    ∀ node ∈ tree.nodes, node.kind.position? = some tree.endPosition → node = marker
  endMarker_iff : ∀ node ∈ tree.nodes, ∀ s p, node.kind = .leaf s p →
    (s = .endMarker ↔ p = tree.endPosition)
  symbolAt_iff : ∀ p s, tree.symbolAt? p = some s ↔ ∃ node ∈ tree.nodes, node.kind = .leaf s p
  /-- The positions with an entry are those of leaves that read something. -/
  entry_iff : ∀ p, (tree.follow.find? p).isSome = true ↔ tree.Reads p
  followpos_empty_iff : ∀ p, tree.Reads p → (tree.followpos p = ∅ ↔ p = tree.endPosition)
  reads_of_attributes : ∀ node ∈ tree.nodes, ∀ p, p ∈ node.firstpos ∨ p ∈ node.lastpos →
    tree.Reads p
  reads_of_followpos : ∀ p, ∀ q ∈ tree.followpos p, tree.Reads q

variable {e : Regex} {p : Nat}

theorem symbolAt?_ofRegex_iff_exists_node {s : Leaf} : (ofRegex e).symbolAt? p = some s ↔
    ∃ node ∈ (ofRegex e).nodes, node.kind = .leaf s p :=
  symbolAt?_ofRegex_iff.trans (PositionTree.mem_marks_iff_exists_node 0)

/-- **The positions that read something are those with an entry.** -/
theorem isSome_follow_iff : ((ofRegex e).follow.find? p).isSome = true ↔ (ofRegex e).Reads p := by
  constructor
  · intro h
    obtain ⟨s, hs, hmark⟩ := PositionTree.exists_mark_of_isSome (t := e.number 1) h
    exact reads_of_mark hs hmark
  · rintro ⟨s, hs, hsymbol⟩
    exact PositionTree.isSome_followTable hs (symbolAt?_ofRegex_iff.mp hsymbol)

theorem reads_of_mem_followpos {q : Nat} (h : q ∈ (ofRegex e).followpos p) :
    (ofRegex e).Reads q := by
  obtain ⟨s, hs, hmark⟩ := ((mem_followpos_ofRegex_iff e p q).mp h).exists_mark
  exact reads_of_mark hs hmark

section EndMarker

variable (hend : Leaf.endMarker ∉ e.leaves)

/-- The end marker among the nodes of an augmented expression. -/
def markerNode (e : Regex) : Node :=
  ⟨0 + (e.number 1).nodeCount, .leaf .endMarker (1 + e.leafCount),
    .ofLeaf .endMarker (1 + e.leafCount)⟩

/-- The root of an augmented expression. -/
def rootNode (e : Regex) : Node :=
  ⟨0 + (e.number 1).nodeCount + 1,
    .concat (0 + (e.number 1).nodeCount - 1) (0 + (e.number 1).nodeCount),
    ((augmented e).number 1).attributes⟩

theorem nodes_augmented (e : Regex) : (ofRegex (augmented e)).nodes =
    (e.number 1).nodesFrom 0 ++ [markerNode e] ++ [rootNode e] := rfl

/-- The positions of an expression come before that of the end marker. -/
theorem not_mem_positions (e : Regex) : 1 + e.leafCount ∉ (e.number 1).positions := by
  intro hmem
  exact absurd (PositionTree.mem_positions_number_iff.mp hmem).2 (Nat.lt_irrefl _)

include hend

/-- Nothing follows the end marker. -/
theorem followpos_endPosition :
    (ofRegex (augmented e)).followpos (ofRegex (augmented e)).endPosition = ∅ := by
  refine OrderedSet.ext fun q => iff_of_false ?_ OrderedSet.not_mem_empty
  rw [Regex.mem_followpos_augmented_iff, endPosition_augmented hend]
  rintro (hprecedes | ⟨hlast, -⟩)
  · exact not_mem_positions e hprecedes.mem_positions.1
  · exact not_mem_positions e (PositionTree.mem_positions_of_lastpos hlast)

/-- **Something follows every other position**, since a word leads from it to the end. -/
theorem followpos_eq_empty_iff (hreads : (ofRegex (augmented e)).Reads p) :
    (ofRegex (augmented e)).followpos p = ∅ ↔ p = (ofRegex (augmented e)).endPosition := by
  constructor
  · intro hempty
    obtain ⟨w, hspelled⟩ := exists_spelled hend hreads
    cases hspelled with
    | stop => rfl
    | step _ hq _ =>
      rw [hempty] at hq
      exact absurd hq OrderedSet.not_mem_empty
  · rintro rfl
    exact followpos_endPosition hend

/-- The end marker is the leaf at the last position. -/
theorem endMarker_iff_of_mark {s : Leaf} (h : (s, p) ∈ ((augmented e).number 1).marks) :
    s = .endMarker ↔ p = (ofRegex (augmented e)).endPosition := by
  have hsymbol := symbolAt?_ofRegex_iff.mpr h
  rw [endPosition_augmented hend]
  constructor
  · rintro rfl
    exact eq_of_symbolAt?_endMarker hend hsymbol
  · rintro rfl
    exact Option.some.inj (hsymbol.symm.trans (symbolAt?_endMarker e))

/-- **The end marker is the right child of the root**, and no other leaf has its position. -/
theorem exists_endMarker : ∃ root,
    (ofRegex (augmented e)).getNode (ofRegex (augmented e)).root = .ok root ∧
    ∃ marker ∈ (ofRegex (augmented e)).nodes, root.kind.right? = some marker.id ∧
      marker.kind = .leaf .endMarker (ofRegex (augmented e)).endPosition ∧
      ∀ node ∈ (ofRegex (augmented e)).nodes,
        node.kind.position? = some (ofRegex (augmented e)).endPosition → node = marker := by
  have hlength : (ofRegex (augmented e)).root =
      ((e.number 1).nodesFrom 0 ++ [markerNode e]).length := by
    rw [List.length_append, PositionTree.length_nodesFrom]
    rfl
  rw [endPosition_augmented hend, nodes_augmented]
  refine ⟨rootNode e, ?_, markerNode e, ?_, rfl, rfl, fun node hnode hposition => ?_⟩
  · rw [getNode, nodes_augmented, hlength, List.getElem?_concat_length]
  · exact List.mem_append_left _ (List.mem_append_right _ List.mem_cons_self)
  rcases List.mem_append.mp hnode with hnode | hnode
  · rcases List.mem_append.mp hnode with hnode | hnode
    · obtain ⟨s, hkind⟩ := NodeKind.position?_eq_some_iff.mp hposition
      have hmark := (PositionTree.mem_marks_iff_exists_node 0).mpr ⟨node, hnode, hkind⟩
      exact absurd (List.mem_map_of_mem hmark) (not_mem_positions e)
    · exact List.mem_singleton.mp hnode
  · obtain rfl := List.mem_singleton.mp hnode
    contradiction

/-- **The tree of an augmented expression is in order.** -/
theorem wellFormed_augmented : (ofRegex (augmented e)).WellFormed e.leaves := by
  have hforest : Node.Forest 0 [(ofRegex (augmented e)).root] (ofRegex (augmented e)).nodes := by
    have hnodes := PositionTree.forest_nodesFrom ((augmented e).number 1) 0
    rw [Nat.zero_add] at hnodes
    exact hnodes
  have hroot : (ofRegex (augmented e)).root + 1 = (ofRegex (augmented e)).nodes.length :=
    (PositionTree.length_nodesFrom ((augmented e).number 1) 0).symm
  have hids : (ofRegex (augmented e)).nodes.map Node.id =
      List.range (ofRegex (augmented e)).nodes.length :=
    hforest.ids.trans List.range_eq_range'.symm
  refine
    { ids := hids
      root_last := hroot
      children_lt := hforest.children_lt
      children_once := ?_
      marks := ?_
      endPosition_eq := ?_
      end_marker := exists_endMarker hend
      endMarker_iff := ?_
      symbolAt_iff := fun p s => symbolAt?_ofRegex_iff_exists_node
      entry_iff := fun p => isSome_follow_iff
      followpos_empty_iff := fun p hreads => followpos_eq_empty_iff hend hreads
      reads_of_attributes := fun node hnode p hp => ?_
      reads_of_followpos := fun p q hq => reads_of_mem_followpos hq }
  · have honce := hforest.once
    rw [hids, ← hroot, List.range_succ] at honce
    exact (List.perm_append_right_iff _).mp honce
  · refine (PositionTree.filterMap_nodesFrom _ 0).trans ?_
    exact PositionTree.marks_number (augmented e) 1
  · rw [endPosition_augmented hend, Regex.length_leaves, Nat.add_comm]
  · intro node hnode s p hkind
    exact endMarker_iff_of_mark hend
      ((PositionTree.mem_marks_iff_exists_node 0).mpr ⟨node, hnode, hkind⟩)
  · obtain ⟨s, hs, hmark⟩ := PositionTree.exists_mark_of_node hnode hp
    exact reads_of_mark hs hmark

end EndMarker

end SyntaxTree

/-! ## 5. Texts -/

/-- **The syntax tree of a text is in order**, and its leaves are those of the text.

The nodes are numbered by their places, children come before their parents, the root is the last
node, and every other node is a child once.  The leaves have the positions from one on, in the order
in which the text is read, and the end marker behind them is the right child of the root.  The
tables speak of these leaves, and only of those that read something where they say what can come
first, last or next. -/
theorem syntaxTree_wellFormed (cs : List Char) (c : SyntaxTreeConversion)
    (h : syntaxTree cs = .ok c) : c.tree.WellFormed (cs.filterMap Leaf.ofChar?) := by
  obtain ⟨listing, hlisting, rfl⟩ := exists_listing_of_syntaxTree h
  obtain ⟨e, hexpresses, hexpression⟩ := Postfix.exists_expresses_of_augmentedOfText hlisting
  have hwell := SyntaxTree.wellFormed_augmented hexpresses.endMarker_not_mem
  rw [SyntaxTree.augmented, ← hexpression, hexpresses.leaves_eq] at hwell
  exact hwell

/-- The leaf for the empty word has position 2, and no entry. -/
theorem syntaxTree_wellFormed_optionalStar :
    syntaxTree "(a|ε)*".toList = .ok (.ofPostfix SyntaxTreeConversion.optionalStarListing) ∧
    (SyntaxTree.ofRegex SyntaxTreeConversion.optionalStarListing.expression).WellFormed
      [.char 'a', .epsilon] ∧
    (SyntaxTree.ofRegex SyntaxTreeConversion.optionalStarListing.expression).follow.keys = [1, 3] ∧
    (SyntaxTree.ofRegex SyntaxTreeConversion.optionalStarListing.expression).nodes.map
      (fun node => node.kind.children) = [[], [], [0, 1], [2], [], [3, 4]] := by
  have hlisting : Postfix.augmentedOfText "(a|ε)*".toList =
      .ok SyntaxTreeConversion.optionalStarListing := by decide
  have hconversion : syntaxTree "(a|ε)*".toList =
      .ok (.ofPostfix SyntaxTreeConversion.optionalStarListing) := by
    rw [syntaxTree, hlisting]
  have hleaves : "(a|ε)*".toList.filterMap Leaf.ofChar? = [.char 'a', .epsilon] := by decide
  have hwell := syntaxTree_wellFormed "(a|ε)*".toList _ hconversion
  rw [hleaves] at hwell
  exact ⟨hconversion, hwell, by decide, by decide⟩

end FormalLang
