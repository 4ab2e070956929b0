import FormalLang.Proofs.Conversion.Safety

/-!
# What the attributes mean

Every node of a syntax tree denotes a language of words of positions: a leaf the word of its own
position, or the empty word if it is for `ε`, and an operator what it makes of the languages of its
operands.  The attributes that the construction keeps at the nodes, and the table of following
positions that it fills on the way, say what these languages are like
(`SyntaxTreeConversion.attributes_describe_words`).

**Whole words.**  Every tree reads some word (`PositionTree.exists_reads`), so that what an operand
begins with, ends with or has next to each other is found in a whole word around it.  The other way
round, neighbours in a word of a concatenation or a star are neighbours in a word of an operand, or
one ends such a word and the other begins the next one (`neighbours_append_iff`).  Empty words in
between do not count: a word that is not empty has its end from the last operand that is not.

**From nodes to trees.**  The nodes name each other by number.  What is read off a node is what the
tree reads that is drawn there (`PositionTree.Draws`, `PositionTree.Draws.nodeReads_iff`), and the
nodes in post-order draw all parts of the tree (`PositionTree.drawn_of_placed`).
-/

namespace FormalLang

/-! ## 1. Beginnings, ends and neighbours -/

/-- Whether two positions stand next to each other in a word. -/
def Neighbours (w : List Nat) (p q : Nat) : Prop := ∃ u v, w = u ++ p :: q :: v

section Neighbours

variable {u v w : List Nat} {x p q : Nat}

theorem not_neighbours_nil : ¬Neighbours [] p q := by simp [Neighbours]

theorem neighbours_cons_iff :
    Neighbours (x :: w) p q ↔ x = p ∧ w.head? = some q ∨ Neighbours w p q := by
  constructor
  · rintro ⟨_ | ⟨y, u⟩, v, h⟩
    · obtain ⟨rfl, rfl⟩ := List.cons.inj h
      exact .inl ⟨rfl, rfl⟩
    · exact .inr ⟨u, v, (List.cons.inj h).2⟩
  · rintro (⟨rfl, hq⟩ | ⟨u, v, rfl⟩)
    · obtain ⟨v, rfl⟩ := List.head?_eq_some_iff.mp hq
      exact ⟨[], v, rfl⟩
    · exact ⟨x :: u, v, rfl⟩

/-- **Neighbours in a row of two words** are neighbours in one of them, or the end of the first and
the beginning of the second. -/
theorem neighbours_append_iff : Neighbours (u ++ v) p q ↔
    (Neighbours u p q ∨ Neighbours v p q) ∨ u.getLast? = some p ∧ v.head? = some q := by
  induction u with
  | nil => simp [not_neighbours_nil]
  | cons x u ih =>
    rw [List.cons_append, neighbours_cons_iff, neighbours_cons_iff, ih]
    cases u with
    | nil => simp [not_neighbours_nil, or_comm]
    | cons y u => simp [or_assoc]

end Neighbours

namespace PositionTree

variable {e : PositionTree} {w : List Nat} {p q : Nat}

/-- **Every tree reads some word.** -/
theorem exists_reads : ∀ t : PositionTree, ∃ w, Reads t w
  | .leaf s p => by
    by_cases hs : s = .epsilon
    · exact ⟨[], hs ▸ .empty p⟩
    · exact ⟨[p], .leaf p hs⟩
  | .concat l r => by
    obtain ⟨u, hu⟩ := exists_reads l
    obtain ⟨v, hv⟩ := exists_reads r
    exact ⟨u ++ v, .concat hu hv⟩
  | .union l r => (exists_reads l).imp fun _ => .unionLeft
  | .star e => ⟨[], .starNil⟩

theorem Reads.star (h : Reads e w) : Reads (.star e) w := by
  have hw := Reads.starCons h .starNil
  rwa [List.append_nil] at hw

/-- **The first positions are those that words begin with.** -/
theorem mem_firstpos_iff : ∀ {t : PositionTree},
    p ∈ t.firstpos ↔ ∃ w, Reads t w ∧ w.head? = some p
  | .leaf s p' => by
    rw [mem_firstpos_leaf_iff]
    simp only [reads_leaf_iff]
    by_cases hs : s = .epsilon
    · simp [hs]
    · simp [hs, eq_comm]
  | .concat l r => by
    rw [mem_firstpos_concat_iff, mem_firstpos_iff (t := l), mem_firstpos_iff (t := r)]
    constructor
    · rintro (⟨u, hu, hp⟩ | ⟨hnullable, v, hv, hp⟩)
      · obtain ⟨v, hv⟩ := exists_reads r
        exact ⟨u ++ v, .concat hu hv, by simp [hp]⟩
      · exact ⟨[] ++ v, .concat (reads_nil_iff.mpr hnullable) hv, hp⟩
    · rintro ⟨w, hw, hp⟩
      obtain ⟨u, v, rfl, hu, hv⟩ := reads_concat_iff.mp hw
      rw [List.head?_append, Option.or_eq_some_iff, List.head?_eq_none_iff] at hp
      rcases hp with hp | ⟨rfl, hp⟩
      · exact .inl ⟨u, hu, hp⟩
      · exact .inr ⟨reads_nil_iff.mp hu, v, hv, hp⟩
  | .union l r => by
    simp only [mem_firstpos_union_iff, mem_firstpos_iff (t := l), mem_firstpos_iff (t := r),
      reads_union_iff, or_and_right, exists_or]
  | .star e => by
    show p ∈ e.firstpos ↔ _
    rw [mem_firstpos_iff]
    constructor
    · rintro ⟨w, hw, hp⟩
      exact ⟨w, hw.star, hp⟩
    · rintro ⟨_ | ⟨p', w⟩, hw, hp⟩
      · contradiction
      · obtain ⟨u, v, rfl, hu, -⟩ := reads_star_cons_iff.mp hw
        exact ⟨p' :: u, hu, hp⟩

/-! ### Reading backwards -/

/-- The tree that reads the words of a tree backwards. -/
def mirror : PositionTree → PositionTree
  | .leaf s p => .leaf s p
  | .concat l r => .concat (mirror r) (mirror l)
  | .union l r => .union (mirror l) (mirror r)
  | .star e => .star (mirror e)

theorem mirror_mirror : ∀ t : PositionTree, t.mirror.mirror = t
  | .leaf _ _ => rfl
  | .concat l r => by rw [mirror, mirror, mirror_mirror l, mirror_mirror r]
  | .union l r => by rw [mirror, mirror, mirror_mirror l, mirror_mirror r]
  | .star e => by rw [mirror, mirror, mirror_mirror e]

theorem nullable_mirror : ∀ t : PositionTree, t.mirror.nullable = t.nullable
  | .leaf _ _ => rfl
  | .concat l r => by
    rw [Bool.eq_iff_iff, mirror, nullable_concat_iff, nullable_concat_iff, nullable_mirror l,
      nullable_mirror r, and_comm]
  | .union l r => by
    rw [Bool.eq_iff_iff, mirror, nullable_union_iff, nullable_union_iff, nullable_mirror l,
      nullable_mirror r]
  | .star _ => rfl

theorem mem_firstpos_mirror_iff : ∀ {t : PositionTree}, p ∈ t.mirror.firstpos ↔ p ∈ t.lastpos
  | .leaf _ _ => by rw [mirror, mem_firstpos_leaf_iff, mem_lastpos_leaf_iff]
  | .concat l r => by
    rw [mirror, mem_firstpos_concat_iff, mem_lastpos_concat_iff, mem_firstpos_mirror_iff (t := l),
      mem_firstpos_mirror_iff (t := r), nullable_mirror]
  | .union l r => by
    rw [mirror, mem_firstpos_union_iff, mem_lastpos_union_iff, mem_firstpos_mirror_iff (t := l),
      mem_firstpos_mirror_iff (t := r)]
  | .star e => mem_firstpos_mirror_iff (t := e)

theorem Reads.mirror {t : PositionTree} (h : Reads t w) : Reads t.mirror w.reverse := by
  induction h with
  | empty p => exact .empty p
  | leaf p hs => exact .leaf p hs
  | concat _ _ ihl ihr =>
    rw [List.reverse_append]
    exact .concat ihr ihl
  | unionLeft _ ih => exact .unionLeft ih
  | unionRight _ ih => exact .unionRight ih
  | starNil => exact .starNil
  | starCons _ _ ihu ihv =>
    rw [List.reverse_append]
    exact reads_star_iff_mem_kstar.mpr (kstar_concat (reads_star_iff_mem_kstar.mp ihv) ihu)

/-- **The last positions are those that words end with**, for read backwards these words begin with
them. -/
theorem mem_lastpos_iff {t : PositionTree} :
    p ∈ t.lastpos ↔ ∃ w, Reads t w ∧ w.getLast? = some p := by
  rw [← mem_firstpos_mirror_iff, mem_firstpos_iff]
  constructor
  · rintro ⟨w, hw, hp⟩
    have hback := hw.mirror
    rw [mirror_mirror] at hback
    exact ⟨w.reverse, hback, by rw [List.getLast?_reverse, hp]⟩
  · rintro ⟨w, hw, hp⟩
    exact ⟨w.reverse, hw.mirror, by rw [List.head?_reverse, hp]⟩

/-- **A position precedes those that come right after it in a word.** -/
theorem precedes_iff : ∀ {t : PositionTree},
    Precedes t p q ↔ ∃ w, Reads t w ∧ Neighbours w p q
  | .leaf s p' => by
    simp only [reads_leaf_iff, iff_false_left not_precedes_leaf]
    rintro ⟨w, ⟨-, rfl⟩ | ⟨-, rfl⟩, h⟩
    · exact not_neighbours_nil h
    · simp [neighbours_cons_iff, not_neighbours_nil] at h
  | .concat l r => by
    rw [precedes_concat_iff, precedes_iff (t := l), precedes_iff (t := r), mem_lastpos_iff,
      mem_firstpos_iff]
    constructor
    · rintro ((⟨u, hu, h⟩ | ⟨v, hv, h⟩) | ⟨⟨u, hu, hp⟩, v, hv, hq⟩)
      · obtain ⟨v, hv⟩ := exists_reads r
        exact ⟨u ++ v, .concat hu hv, neighbours_append_iff.mpr (.inl (.inl h))⟩
      · obtain ⟨u, hu⟩ := exists_reads l
        exact ⟨u ++ v, .concat hu hv, neighbours_append_iff.mpr (.inl (.inr h))⟩
      · exact ⟨u ++ v, .concat hu hv, neighbours_append_iff.mpr (.inr ⟨hp, hq⟩)⟩
    · rintro ⟨w, hw, h⟩
      obtain ⟨u, v, rfl, hu, hv⟩ := reads_concat_iff.mp hw
      rcases neighbours_append_iff.mp h with (h | h) | ⟨hp, hq⟩
      · exact .inl (.inl ⟨u, hu, h⟩)
      · exact .inl (.inr ⟨v, hv, h⟩)
      · exact .inr ⟨⟨u, hu, hp⟩, v, hv, hq⟩
  | .union l r => by
    simp only [precedes_union_iff, precedes_iff (t := l), precedes_iff (t := r), reads_union_iff,
      or_and_right, exists_or]
  | .star e => by
    constructor
    · rw [precedes_star_iff, precedes_iff (t := e), mem_lastpos_iff, mem_firstpos_iff]
      rintro (⟨w, hw, h⟩ | ⟨⟨u, hu, hp⟩, v, hv, hq⟩)
      · exact ⟨w, hw.star, h⟩
      · exact ⟨u ++ v, .starCons hu hv.star, neighbours_append_iff.mpr (.inr ⟨hp, hq⟩)⟩
    · rintro ⟨w, hw, h⟩
      have hrounds := reads_star_iff_mem_kstar.mp hw
      clear hw
      induction hrounds using kstar_induction with
      | nil => exact absurd h not_neighbours_nil
      | cons u v hu hv ih =>
        rcases neighbours_append_iff.mp h with (h | h) | ⟨hp, hq⟩
        · exact .star (precedes_iff.mpr ⟨u, hu, h⟩)
        · exact ih h
        -- what stands behind `u` begins a word of the star, and so one of the operand
        · have hfirst : q ∈ (PositionTree.star e).firstpos :=
            mem_firstpos_iff.mpr ⟨v, reads_star_iff_mem_kstar.mpr hv, hq⟩
          exact .around (mem_lastpos_iff.mpr ⟨u, hu, hp⟩) hfirst

end PositionTree

/-! ## 2. Nodes -/

/-- The kind of the node with a number. -/
def Node.kindAt? (nodes : List Node) (id : Nat) : Option NodeKind := nodes[id]?.map Node.kind

/-- **Whether a node reads a word of positions.**  The children are found by their numbers. -/
inductive NodeReads (nodes : List Node) : Nat → List Nat → Prop where
  | empty {id p : Nat} (h : Node.kindAt? nodes id = some (.leaf .epsilon p)) :
      NodeReads nodes id []
  | leaf {id p : Nat} {s : Leaf} (h : Node.kindAt? nodes id = some (.leaf s p))
      (hs : s ≠ .epsilon) : NodeReads nodes id [p]
  | concat {id left right : Nat} {u v : List Nat}
      (h : Node.kindAt? nodes id = some (.concat left right)) (hl : NodeReads nodes left u)
      (hr : NodeReads nodes right v) : NodeReads nodes id (u ++ v)
  | unionLeft {id left right : Nat} {w : List Nat}
      (h : Node.kindAt? nodes id = some (.union left right)) (hw : NodeReads nodes left w) :
      NodeReads nodes id w
  | unionRight {id left right : Nat} {w : List Nat}
      (h : Node.kindAt? nodes id = some (.union left right)) (hw : NodeReads nodes right w) :
      NodeReads nodes id w
  | starNil {id child : Nat} (h : Node.kindAt? nodes id = some (.star child)) :
      NodeReads nodes id []
  | starCons {id child : Nat} {u v : List Nat} (h : Node.kindAt? nodes id = some (.star child))
      (hu : NodeReads nodes child u) (hv : NodeReads nodes id v) : NodeReads nodes id (u ++ v)

namespace PositionTree

/-- **Whether a tree is drawn** with its root at the node with a number. -/
def Draws (nodes : List Node) : PositionTree → Nat → Prop
  | .leaf s p, id => Node.kindAt? nodes id = some (.leaf s p)
  | .concat l r, id => ∃ left right, Node.kindAt? nodes id = some (.concat left right) ∧
      Draws nodes l left ∧ Draws nodes r right
  | .union l r, id => ∃ left right, Node.kindAt? nodes id = some (.union left right) ∧
      Draws nodes l left ∧ Draws nodes r right
  | .star e, id => ∃ child, Node.kindAt? nodes id = some (.star child) ∧ Draws nodes e child

variable {nodes : List Node} {id : Nat} {w : List Nat}

/-- A node reads what the tree reads that is drawn there. -/
theorem Reads.nodeReads {t : PositionTree} (h : Reads t w) :
    ∀ {id}, Draws nodes t id → NodeReads nodes id w := by
  induction h with
  | empty p => exact fun hdraws => .empty hdraws
  | leaf p hs => exact fun hdraws => .leaf hdraws hs
  | concat _ _ ihl ihr =>
    rintro id ⟨left, right, hkind, hl, hr⟩
    exact .concat hkind (ihl hl) (ihr hr)
  | unionLeft _ ih =>
    rintro id ⟨left, right, hkind, hl, -⟩
    exact .unionLeft hkind (ih hl)
  | unionRight _ ih =>
    rintro id ⟨left, right, hkind, -, hr⟩
    exact .unionRight hkind (ih hr)
  | starNil =>
    rintro id ⟨child, hkind, -⟩
    exact .starNil hkind
  | starCons _ _ ihu ihv =>
    rintro id ⟨child, hkind, he⟩
    exact .starCons hkind (ihu he) (ihv ⟨child, hkind, he⟩)

/-- Whether a tree has a node of some kind at its root, and is drawn below it. -/
def DrawsBelow (nodes : List Node) : NodeKind → PositionTree → Prop
  | .leaf s p, t => t = .leaf s p
  | .concat left right, t => ∃ l r, t = .concat l r ∧ Draws nodes l left ∧ Draws nodes r right
  | .union left right, t => ∃ l r, t = .union l r ∧ Draws nodes l left ∧ Draws nodes r right
  | .star child, t => ∃ e, t = .star e ∧ Draws nodes e child

/-- **The kind of a node tells what is drawn at it.** -/
theorem Draws.below {t : PositionTree} {kind : NodeKind} (h : Draws nodes t id)
    (hkind : Node.kindAt? nodes id = some kind) : DrawsBelow nodes kind t := by
  cases t with
  | leaf s p =>
    obtain rfl := Option.some.inj (hkind.symm.trans h)
    exact rfl
  | concat l r =>
    obtain ⟨_, _, hkind', hl, hr⟩ := h
    obtain rfl := Option.some.inj (hkind.symm.trans hkind')
    exact ⟨l, r, rfl, hl, hr⟩
  | union l r =>
    obtain ⟨_, _, hkind', hl, hr⟩ := h
    obtain rfl := Option.some.inj (hkind.symm.trans hkind')
    exact ⟨l, r, rfl, hl, hr⟩
  | star e =>
    obtain ⟨_, hkind', he⟩ := h
    obtain rfl := Option.some.inj (hkind.symm.trans hkind')
    exact ⟨e, rfl, he⟩

theorem Draws.reads_of_nodeReads (h : NodeReads nodes id w) :
    ∀ {t : PositionTree}, Draws nodes t id → Reads t w := by
  induction h with
  | empty hkind =>
    intro t hdraws
    obtain rfl : t = .leaf _ _ := hdraws.below hkind
    exact .empty _
  | leaf hkind hs =>
    intro t hdraws
    obtain rfl : t = .leaf _ _ := hdraws.below hkind
    exact .leaf _ hs
  | concat hkind _ _ ihl ihr =>
    intro t hdraws
    obtain ⟨l, r, rfl, hl, hr⟩ := hdraws.below hkind
    exact .concat (ihl hl) (ihr hr)
  | unionLeft hkind _ ih =>
    intro t hdraws
    obtain ⟨l, r, rfl, hl, -⟩ := hdraws.below hkind
    exact .unionLeft (ih hl)
  | unionRight hkind _ ih =>
    intro t hdraws
    obtain ⟨l, r, rfl, -, hr⟩ := hdraws.below hkind
    exact .unionRight (ih hr)
  | starNil hkind =>
    intro t hdraws
    obtain ⟨e, rfl, -⟩ := hdraws.below hkind
    exact .starNil
  | starCons hkind _ _ ihu ihv =>
    intro t hdraws
    obtain ⟨e, rfl, he⟩ := hdraws.below hkind
    exact .starCons (ihu he) (ihv hdraws)

/-- **A node reads the words of the tree that is drawn there.** -/
theorem Draws.nodeReads_iff {t : PositionTree} (h : Draws nodes t id) :
    NodeReads nodes id w ↔ Reads t w :=
  ⟨fun hw => h.reads_of_nodeReads hw, fun hw => hw.nodeReads h⟩

/-! ## 3. The nodes in post-order -/

/-- Whether some nodes are found among all nodes from a number on. -/
def Placed (nodes part : List Node) (first : Nat) : Prop :=
  ∀ i node, part[i]? = some node → nodes[first + i]? = some node

section Placed

variable {part rest : List Node} {first : Nat}

theorem placed_self (nodes : List Node) : Placed nodes nodes 0 := by simp [Placed]

theorem Placed.left (h : Placed nodes (part ++ rest) first) : Placed nodes part first := by
  intro i node hnode
  refine h i node ?_
  rw [List.getElem?_append_left (List.getElem?_eq_some_iff.mp hnode).1, hnode]

theorem Placed.right (h : Placed nodes (part ++ rest) first) :
    Placed nodes rest (first + part.length) := by
  intro i node hnode
  rw [Nat.add_assoc]
  refine h (part.length + i) node ?_
  rw [List.getElem?_append_right (Nat.le_add_right _ _), Nat.add_sub_cancel_left, hnode]

theorem Placed.kindAt?_eq {node : Node} (h : Placed nodes [node] first) :
    Node.kindAt? nodes first = some node.kind := by
  have hnode : nodes[first]? = some node := h 0 node rfl
  rw [Node.kindAt?, hnode, Option.map_some]

end Placed

/-- **The nodes of a tree draw it.** -/
theorem draws_of_placed : ∀ {t : PositionTree} {first : Nat},
    Placed nodes (t.nodesFrom first) first → Draws nodes t (first + t.nodeCount - 1)
  | .leaf s p, first, h => h.kindAt?_eq
  | .concat l r, first, h => by
    have hr := h.left.right
    have hroot := h.right.kindAt?_eq
    simp only [List.length_append, length_nodesFrom] at hr hroot
    exact ⟨_, _, hroot, draws_of_placed h.left.left, draws_of_placed hr⟩
  | .union l r, first, h => by
    have hr := h.left.right
    have hroot := h.right.kindAt?_eq
    simp only [List.length_append, length_nodesFrom] at hr hroot
    exact ⟨_, _, hroot, draws_of_placed h.left.left, draws_of_placed hr⟩
  | .star e, first, h => by
    have hroot := h.right.kindAt?_eq
    simp only [length_nodesFrom] at hroot
    exact ⟨_, hroot, draws_of_placed h.left⟩

/-- Whether each of some nodes is the root of a tree that has its attributes. -/
def Drawn (nodes part : List Node) (first : Nat) : Prop :=
  ∀ i node, part[i]? = some node →
    ∃ t, Draws nodes t (first + i) ∧ node.attributes = attributes t

theorem Drawn.append {part rest : List Node} {first length : Nat} (h : Drawn nodes part first)
    (hlength : part.length = length) (h' : Drawn nodes rest (first + length)) :
    Drawn nodes (part ++ rest) first := by
  subst hlength
  intro i node hnode
  rw [List.getElem?_append] at hnode
  split at hnode
  · exact h i node hnode
  · obtain ⟨t, ht, hattributes⟩ := h' _ node hnode
    have hnumber : first + part.length + (i - part.length) = first + i := by omega
    exact ⟨t, hnumber ▸ ht, hattributes⟩

theorem drawn_root {t : PositionTree} {node : Node} {first : Nat} (h : Draws nodes t first)
    (hattributes : node.attributes = t.attributes) : Drawn nodes [node] first := by
  intro i _ hnode
  obtain ⟨rfl, rfl⟩ : i = 0 ∧ _ := by simpa [List.getElem?_singleton] using hnode
  exact ⟨t, h, hattributes⟩

/-- **Every node is the root of a tree that has its attributes.** -/
theorem drawn_of_placed : ∀ {t : PositionTree} {first : Nat},
    Placed nodes (t.nodesFrom first) first → Drawn nodes (t.nodesFrom first) first
  | .leaf s p, first, h => drawn_root (draws_of_placed (t := .leaf s p) h) rfl
  | .concat l r, first, h => by
    have hr := h.left.right
    have hroot := draws_of_placed (t := .concat l r) h
    rw [length_nodesFrom] at hr
    have hlength : (l.nodesFrom first ++ r.nodesFrom (first + l.nodeCount)).length =
        l.nodeCount + r.nodeCount := by simp
    exact ((drawn_of_placed h.left.left).append (length_nodesFrom _ _)
      (drawn_of_placed hr)).append hlength (drawn_root hroot rfl)
  | .union l r, first, h => by
    have hr := h.left.right
    have hroot := draws_of_placed (t := .union l r) h
    rw [length_nodesFrom] at hr
    have hlength : (l.nodesFrom first ++ r.nodesFrom (first + l.nodeCount)).length =
        l.nodeCount + r.nodeCount := by simp
    exact ((drawn_of_placed h.left.left).append (length_nodesFrom _ _)
      (drawn_of_placed hr)).append hlength (drawn_root hroot rfl)
  | .star e, first, h => by
    have hroot := draws_of_placed (t := .star e) h
    exact (drawn_of_placed h.left).append (length_nodesFrom _ _) (drawn_root hroot rfl)

end PositionTree

/-! ## 4. Texts -/

/-- **Whether the attributes of a node describe words**: whether one is empty, and what they begin
and end with. -/
structure Node.Describes (node : Node) (reads : List Nat → Prop) : Prop where
  nullable_iff : node.nullable = true ↔ reads []
  firstpos_iff : ∀ p, p ∈ node.firstpos ↔ ∃ w, reads (p :: w)
  lastpos_iff : ∀ p, p ∈ node.lastpos ↔ ∃ w, reads (w ++ [p])

namespace PositionTree

variable {nodes : List Node} {t : PositionTree} {id : Nat}

/-- The attributes of a tree describe the words of the node that it is drawn at. -/
theorem Draws.describes (h : Draws nodes t id) {node : Node}
    (hattributes : node.attributes = t.attributes) : node.Describes (NodeReads nodes id) where
  nullable_iff := by
    rw [Node.nullable, hattributes, h.nodeReads_iff]
    exact reads_nil_iff.symm
  firstpos_iff p := by
    rw [Node.firstpos, hattributes]
    simp only [h.nodeReads_iff]
    constructor
    · intro hp
      obtain ⟨w, hw, hhead⟩ := mem_firstpos_iff.mp hp
      obtain ⟨v, rfl⟩ := List.head?_eq_some_iff.mp hhead
      exact ⟨v, hw⟩
    · rintro ⟨v, hv⟩
      exact mem_firstpos_iff.mpr ⟨_, hv, rfl⟩
  lastpos_iff p := by
    rw [Node.lastpos, hattributes]
    simp only [h.nodeReads_iff]
    constructor
    · intro hp
      obtain ⟨w, hw, hlast⟩ := mem_lastpos_iff.mp hp
      obtain ⟨v, rfl⟩ := List.getLast?_eq_some_iff.mp hlast
      exact ⟨v, hw⟩
    · rintro ⟨v, hv⟩
      exact mem_lastpos_iff.mpr ⟨_, hv, by simp⟩

end PositionTree

namespace SyntaxTree

theorem describes_of_getNode {e : Regex} {id : Nat} {node : Node}
    (h : (ofRegex e).getNode id = .ok node) :
    node.Describes (NodeReads (ofRegex e).nodes id) := by
  unfold getNode at h
  split at h
  · contradiction
  · rename_i hnode
    obtain rfl := Except.ok.inj h
    obtain ⟨t, hdraws, hattributes⟩ :=
      PositionTree.drawn_of_placed (PositionTree.placed_self _) id _ hnode
    rw [Nat.zero_add] at hdraws
    exact hdraws.describes hattributes

/-- **The table lists what is next to each other in the words of the root.** -/
theorem mem_followpos_iff_nodeReads {e : Regex} {p q : Nat} : q ∈ (ofRegex e).followpos p ↔
    ∃ u v, NodeReads (ofRegex e).nodes (ofRegex e).root (u ++ p :: q :: v) := by
  have hdraws := PositionTree.draws_of_placed (PositionTree.placed_self ((e.number 1).nodesFrom 0))
  rw [Nat.zero_add] at hdraws
  rw [mem_followpos_ofRegex_iff, PositionTree.precedes_iff]
  constructor
  · rintro ⟨_, hw, u, v, rfl⟩
    exact ⟨u, v, hdraws.nodeReads_iff.mpr hw⟩
  · rintro ⟨u, v, hw⟩
    exact ⟨_, hdraws.nodeReads_iff.mp hw, u, v, rfl⟩

end SyntaxTree

/-- **The attributes have their meaning.**

In the syntax tree that is made of a text, a node is nullable if and only if it reads the empty
word, and its first and last positions are those that the words it reads begin and end with.  A
position follows another one if and only if a word of the root has it right after the other. -/
theorem SyntaxTreeConversion.attributes_describe_words (cs : List Char) (c : SyntaxTreeConversion)
    (h : syntaxTree cs = .ok c) :
    (∀ id node, c.tree.getNode id = .ok node → node.Describes (NodeReads c.tree.nodes id)) ∧
    ∀ p q, q ∈ c.tree.followpos p ↔
      ∃ u v, NodeReads c.tree.nodes c.tree.root (u ++ p :: q :: v) := by
  obtain ⟨listing, -, rfl⟩ := exists_listing_of_syntaxTree h
  exact ⟨fun _ _ => SyntaxTree.describes_of_getNode, fun _ _ =>
    SyntaxTree.mem_followpos_iff_nodeReads⟩

namespace SyntaxTreeConversion

/-- The listing of `((ab*)*c)` and the end marker behind it. -/
def roundsListing : Postfix :=
  ⟨[⟨.leaf (.char 'a'), 1⟩, ⟨.leaf (.char 'b'), 2⟩, ⟨.operator .star, 3⟩, ⟨.operator .concat, 2⟩,
      ⟨.operator .star, 5⟩, ⟨.leaf (.char 'c'), 6⟩, ⟨.operator .concat, 6⟩,
      ⟨.leaf .endMarker, 7⟩, ⟨.operator .concat, 7⟩],
    .concat (.concat (.star (.concat (.leaf (.char 'a')) (.star (.leaf (.char 'b')))))
      (.leaf (.char 'c'))) (.leaf .endMarker)⟩

/-- The `a` at position 1 can be followed by itself, when the outer star comes round, and by the `c`
at position 3, past the inner star.  Nothing but the end marker follows the `c`. -/
theorem attributes_describe_words_rounds :
    syntaxTree "(ab*)*c".toList = .ok (ofPostfix roundsListing) ∧
    (∃ node, (ofPostfix roundsListing).tree.getNode 2 = .ok node ∧
      NodeReads (ofPostfix roundsListing).tree.nodes 2 []) ∧
    (∃ u v, NodeReads (ofPostfix roundsListing).tree.nodes 8 (u ++ 1 :: 1 :: v)) ∧
    (∃ u v, NodeReads (ofPostfix roundsListing).tree.nodes 8 (u ++ 1 :: 3 :: v)) ∧
    ¬∃ u v, NodeReads (ofPostfix roundsListing).tree.nodes 8 (u ++ 3 :: 1 :: v) := by
  have hlisting : Postfix.augmentedOfText "(ab*)*c".toList = .ok roundsListing := by decide
  have hconversion : syntaxTree "(ab*)*c".toList = .ok (ofPostfix roundsListing) := by
    rw [syntaxTree, hlisting]
  obtain ⟨hnodes, hfollow⟩ := attributes_describe_words _ _ hconversion
  have hstar : (ofPostfix roundsListing).tree.getNode 2 =
      .ok ⟨2, .star 1, ⟨true, .singleton 2, .singleton 2⟩⟩ := by decide
  have hroot : (ofPostfix roundsListing).tree.root = 8 := by decide
  rw [hroot] at hfollow
  refine ⟨hconversion, ⟨_, hstar, (hnodes 2 _ hstar).nullable_iff.mp rfl⟩, ?_, ?_, ?_⟩
  · exact (hfollow 1 1).mp (by decide)
  · exact (hfollow 1 3).mp (by decide)
  · exact fun hwords => absurd ((hfollow 3 1).mpr hwords) (by decide)

end SyntaxTreeConversion

end FormalLang
