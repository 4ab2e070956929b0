import FormalLang.Proofs.Automaton.Quotient
import FormalLang.Proofs.Automaton.Subset
import FormalLang.Proofs.Conversion.Leaves
import FormalLang.Proofs.Position.Followpos

/-!
# The followpos automaton is the quotient of the subset automaton

The two ways from a text to a deterministic automaton lead to different state sets.  A set of states
of Thompson's automaton is sent to the positions of the leaves that can be read next from it, with
the end position if the accept state is in it (`ThompsonConversion.positionsOf`).  By this map the
followpos automaton is a quotient of the subset automaton
(`ThompsonConversion.dfa_isQuotient_syntaxTree`).

**From paths to positions.**  A move of the subset automaton reads a leaf and goes on without input,
which leads to the leaves whose positions follow (`Regex.Mirrors`).  So the map takes moves to moves
(`ThompsonConversion.folds_positionsOf`).  It forgets the states that no leaf begins with, and so
the followpos automaton can be smaller.
-/

namespace FormalLang

/-! ## 1. The map -/

/-- The label of a leaf and the state that its edge leaves, if a step adds a leaf. -/
def Step.leafStart? : Step → Option (Label × Nat)
  | .symbol label start _ => some (label, start)
  | _ => none

namespace ThompsonConversion

/-- The leaves of the expression with the states that they begin with, from left to right. -/
def leafStarts (conversion : ThompsonConversion) : List (Label × Nat) :=
  conversion.steps.filterMap Step.leafStart?

/-- **The positions that can be read next** from a set of states: those of the characters whose leaf
begins with one of the states, and the end position if the accept state is there. -/
def positionsOf (conversion : ThompsonConversion) (members : Members) : Members :=
  OrderedSet.ofList (((conversion.leafStarts.zipIdx 1).filter fun leaf =>
      leaf.1.1 ≠ .epsilon ∧ leaf.1.2 ∈ members).map Prod.snd) ∪
    if conversion.nfa.accept ∈ members then .singleton (conversion.leafStarts.length + 1) else ∅

end ThompsonConversion

namespace Regex

/-- The leaves are recorded as they are read. -/
theorem filterMap_leafStart?_steps : ∀ (e : Regex) (first free : Nat),
    (e.fragment free).steps.filterMap Step.leafStart? =
      (e.entrances first free).map fun x => (x.symbol.label, x.state)
  | .leaf _, _, _ => rfl
  | .concat l r, first, free => by
    have hl := filterMap_leafStart?_steps l first free
    have hr := filterMap_leafStart?_steps r (first + l.leafCount) (l.fragment free).next
    simp only [fragment, Fragment.concat, entrances, List.filterMap_append, List.map_append, hl, hr,
      List.filterMap_cons, Step.leafStart?, List.filterMap_nil, List.append_nil]
  | .union l r, first, free => by
    have hl := filterMap_leafStart?_steps l first free
    have hr := filterMap_leafStart?_steps r (first + l.leafCount) (l.fragment free).next
    simp only [fragment, Fragment.union, entrances, List.filterMap_append, List.map_append, hl, hr,
      List.filterMap_cons, Step.leafStart?, List.filterMap_nil, List.append_nil]
  | .star e, first, free => by
    have he := filterMap_leafStart?_steps e first free
    simp only [fragment, Fragment.star, entrances, List.filterMap_append, he, List.filterMap_cons,
      Step.leafStart?, List.filterMap_nil, List.append_nil]

/-- The positions count the leaves. -/
theorem zipIdx_map_entrances {α : Type} {g : Entrance → α} : ∀ (e : Regex) (first free : Nat),
    ((e.entrances first free).map g).zipIdx first =
      (e.entrances first free).map fun x => (g x, x.position)
  | .leaf _, _, _ => rfl
  | .concat l r, first, free => by
    rw [entrances, List.map_append, List.zipIdx_append, zipIdx_map_entrances l, List.length_map,
      length_entrances, zipIdx_map_entrances r, List.map_append]
  | .union l r, first, free => by
    rw [entrances, List.map_append, List.zipIdx_append, zipIdx_map_entrances l, List.length_map,
      length_entrances, zipIdx_map_entrances r, List.map_append]
  | .star e, first, free => zipIdx_map_entrances e first free

end Regex

namespace ThompsonConversion

open Regex

variable {listing : Postfix} {s : Members} {p : Nat}

theorem leafStarts_ofPostfix (listing : Postfix) : (ofPostfix listing).leafStarts =
    (listing.expression.entrances 1 0).map fun x => (x.symbol.label, x.state) := by
  have hmoves : ∀ e : Exploration, ∀ start, (e.steps start).filterMap Step.leafStart? = [] := by
    intro e start
    simp [Exploration.steps, Step.leafStart?]
  simp only [leafStarts, ofPostfix, List.filterMap_append, List.filterMap_cons, Step.leafStart?,
    hmoves, List.append_nil, filterMap_leafStart?_steps _ 1 0]

theorem mem_positionsOf_iff : p ∈ (ofPostfix listing).positionsOf s ↔
    (∃ x ∈ listing.expression.entrances 1 0, x.symbol ≠ .epsilon ∧ x.state ∈ s ∧
      x.position = p) ∨
    p = listing.expression.leafCount + 1 ∧ listing.expression.toNfa.accept ∈ s := by
  have hlabel : ∀ l : Leaf, l.label = .epsilon ↔ l = .epsilon := by
    intro l
    cases l <;> simp [Leaf.label]
  have hend : p ∈ (if (ofPostfix listing).nfa.accept ∈ s then
      OrderedSet.singleton (listing.expression.leafCount + 1) else ∅) ↔
      p = listing.expression.leafCount + 1 ∧ listing.expression.toNfa.accept ∈ s := by
    rw [(ofPostfix_dfa listing).1]
    split <;> simp_all
  rw [positionsOf, OrderedSet.mem_union, leafStarts_ofPostfix, List.length_map, length_entrances,
    hend, zipIdx_map_entrances]
  refine or_congr_left ?_
  simp [hlabel, and_assoc]

end ThompsonConversion

/-! ## 2. What is reached from a leaf -/

namespace Regex

open SyntaxTree

variable {e : Regex} {first free : Nat} {x y : Entrance} {p q : Nat} {c : Char} {s : Members}

theorem symbol_mem_leaves (hx : x ∈ e.entrances first free) : x.symbol ∈ e.leaves := by
  have hmark : (x.symbol, x.position) ∈ (e.number first).marks := by
    rw [marks_eq_map_entrances e first free]
    exact List.mem_map_of_mem hx
  exact PositionTree.mem_leaves_of_mark hmark

/-- A position is at one leaf. -/
theorem eq_of_position_eq (hx : x ∈ e.entrances first free) (hy : y ∈ e.entrances first free)
    (h : x.position = y.position) : x = y := by
  have hnodup := PositionTree.nodup_positions_number e first
  rw [PositionTree.positions, marks_eq_map_entrances e first free, List.map_map] at hnodup
  exact List.inj_on_of_nodup_map hnodup hx hy h

theorem position_lt_of_mem_entrances (hx : x ∈ e.entrances 1 0) :
    x.position < e.leafCount + 1 := by
  have hposition := PositionTree.mem_positions_number_iff.mp (mem_positions_of_mem_entrances hx)
  omega

/-- The leaves that read something. -/
def readers (e : Regex) (first free : Nat) : List Entrance :=
  (e.entrances first free).filter fun x => x.symbol ≠ .epsilon

theorem mem_readers_iff :
    x ∈ e.readers first free ↔ x ∈ e.entrances first free ∧ x.symbol ≠ .epsilon := by
  simp [readers]

theorem exists_reader (free : Nat) {s : Leaf} (hs : s ≠ .epsilon)
    (h : (s, p) ∈ (e.number first).marks) :
    ∃ x ∈ e.readers first free, x.position = p := by
  rw [marks_eq_map_entrances e first free] at h
  obtain ⟨x, hx, heq⟩ := List.mem_map.mp h
  obtain ⟨rfl, rfl⟩ := Prod.mk.inj heq
  exact ⟨x, mem_readers_iff.mpr ⟨hx, hs⟩, rfl⟩

/-- **An expression mirrors its own fragment.** -/
theorem mirrors_readers (e : Regex) (first free : Nat) :
    Mirrors (e.readers first free) e first free :=
  mirrors_of_respects (fun _ hx => (mem_readers_iff.mp hx).2)
    fun _ hx _ => (mem_readers_iff.mp hx).1

theorem mem_followpos_augmented_iff : q ∈ (ofRegex (augmented e)).followpos p ↔
    (e.number 1).Precedes p q ∨ p ∈ (e.number 1).lastpos ∧ q = e.leafCount + 1 := by
  rw [mem_followpos_ofRegex_iff]
  refine PositionTree.precedes_concat_iff.trans ?_
  simp [number, PositionTree.not_precedes_leaf, PositionTree.mem_firstpos_leaf_iff, Nat.add_comm]

theorem bears_augmented_iff : (ofRegex (augmented e)).Bears p c ↔
    ∃ x ∈ e.entrances 1 0, x.symbol = .char c ∧ x.position = p := by
  refine symbolAt?_ofRegex_iff.trans ?_
  have hmarks : ((augmented e).number 1).marks =
      ((e.entrances 1 0).map fun x => (x.symbol, x.position)) ++
        [(.endMarker, 1 + e.leafCount)] := by
    rw [number, PositionTree.marks, marks_eq_map_entrances e 1 0]
    rfl
  rw [hmarks]
  simp

/-- **What is entered from the start** are the first positions. -/
theorem reaches_start_iff :
    ((∃ y ∈ e.readers 1 0, (e.fragment 0).Reaches (e.fragment 0).start y.state ∧
      y.position = q) ∨
      q = e.leafCount + 1 ∧ (e.fragment 0).Reaches (e.fragment 0).start (e.fragment 0).accept) ↔
    q ∈ ((augmented e).number 1).firstpos := by
  have hmirrors := mirrors_readers e 1 0
  refine .trans ?_ PositionTree.mem_firstpos_concat_iff.symm
  rw [hmirrors.through, number, PositionTree.mem_firstpos_leaf_iff]
  constructor
  · rintro (⟨y, hy, hreaches, rfl⟩ | ⟨rfl, hnullable⟩)
    · exact .inl ((hmirrors.begins y hy).mp hreaches)
    · exact .inr ⟨hnullable, by decide, Nat.add_comm _ _⟩
  · rintro (hfirst | ⟨hnullable, -, rfl⟩)
    · obtain ⟨_, hs, hmark⟩ := PositionTree.exists_mark_of_attributes (.inl hfirst)
      obtain ⟨y, hy, rfl⟩ := exists_reader 0 hs hmark
      exact .inl ⟨y, hy, (hmirrors.begins y hy).mpr hfirst, rfl⟩
    · exact .inr ⟨Nat.add_comm _ _, hnullable⟩

/-- **What is entered behind a leaf** are the positions that follow. -/
theorem reaches_behind_iff (hx : x ∈ e.readers 1 0) :
    ((∃ y ∈ e.readers 1 0, (e.fragment 0).Reaches (x.state + 1) y.state ∧ y.position = q) ∨
      q = e.leafCount + 1 ∧ (e.fragment 0).Reaches (x.state + 1) (e.fragment 0).accept) ↔
    q ∈ (ofRegex (augmented e)).followpos x.position := by
  have hmirrors := mirrors_readers e 1 0
  have hmine := (mem_readers_iff.mp hx).1
  rw [mem_followpos_augmented_iff, hmirrors.ends x hx hmine, and_comm (a := q = _)]
  refine or_congr_left ⟨?_, fun hprecedes => ?_⟩
  · rintro ⟨y, hy, hreaches, rfl⟩
    exact (hmirrors.precedes x hx hmine y hy).mp hreaches
  · obtain ⟨_, hs, hmark⟩ := hprecedes.exists_mark
    obtain ⟨y, hy, rfl⟩ := exists_reader 0 hs hmark
    exact ⟨y, hy, (hmirrors.precedes x hx hmine y hy).mpr hprecedes, rfl⟩

/-! ## 3. Moves -/

theorem path_toNfa_iff : e.toNfa.Path p [] q ↔ (e.fragment 0).Reaches p q := by
  have hsources : ∀ edge ∈ (e.fragment 0).edges, edge.source < (e.fragment 0).next :=
    fun edge hedge => ((e.tight_fragment 0).edges edge hedge).1.2
  exact (Nfa.path_ofEdges_iff hsources).trans Fragment.Reaches.iff_connects.symm

/-- A move reads a leaf. -/
theorem mem_moveOn_toNfa_iff (hend : Leaf.endMarker ∉ e.leaves) : q ∈ e.toNfa.moveOn s c ↔
    ∃ x ∈ e.entrances 1 0, x.symbol = .char c ∧ x.state ∈ s ∧ q = x.state + 1 := by
  have hlabel : ∀ x ∈ e.entrances 1 0, (x.symbol.label = .char c ↔ x.symbol = .char c) := by
    intro x hx
    have hmem := symbol_mem_leaves hx
    cases hsymbol : x.symbol with
    | char d => simp [Leaf.label]
    | epsilon => simp [Leaf.label]
    | endMarker => exact absurd (hsymbol ▸ hmem) hend
  rw [Nfa.mem_moveOn_iff]
  constructor
  · rintro ⟨p, hp, hedge⟩
    obtain ⟨x, hx, hc, rfl, rfl⟩ :=
      (mem_edges_char_iff e 1 0).mp (Nfa.hasEdge_ofEdges_iff.mp hedge).2
    exact ⟨x, hx, (hlabel x hx).mp hc, hp, rfl⟩
  · rintro ⟨x, hx, hc, hs, rfl⟩
    have hlt := (bounds_of_mem_entrances hx).2
    exact ⟨x.state, hs, Nfa.hasEdge_ofEdges_iff.mpr ⟨Nat.lt_of_succ_lt hlt,
      (mem_edges_char_iff e 1 0).mpr ⟨x, hx, (hlabel x hx).mpr hc, rfl, rfl⟩⟩⟩

theorem mem_closure_moveOn_iff (hend : Leaf.endMarker ∉ e.leaves) :
    q ∈ e.toNfa.closure (e.toNfa.moveOn s c).toList ↔
      ∃ x ∈ e.entrances 1 0, x.symbol = .char c ∧ x.state ∈ s ∧
        (e.fragment 0).Reaches (x.state + 1) q := by
  have wf := e.built_toNfa.wellFormed
  rw [Nfa.mem_closure_iff wf.targets_lt wf.moveOn_lt_size]
  constructor
  · rintro ⟨r, hr, hpath⟩
    obtain ⟨x, hx, hc, hs, rfl⟩ := (mem_moveOn_toNfa_iff hend).mp hr
    exact ⟨x, hx, hc, hs, path_toNfa_iff.mp hpath⟩
  · rintro ⟨x, hx, hc, hs, hreaches⟩
    exact ⟨_, (mem_moveOn_toNfa_iff hend).mpr ⟨x, hx, hc, hs, rfl⟩, path_toNfa_iff.mpr hreaches⟩

end Regex

namespace ThompsonConversion

open Regex SyntaxTree

variable {listing : Postfix} {s : Members} {p q : Nat} {c : Char}

/-- The positions with a character are those of its leaves that can be read. -/
theorem exists_bears_iff {P : Nat → Prop} :
    (∃ p ∈ (ofPostfix listing).positionsOf s,
      (ofRegex (augmented listing.expression)).Bears p c ∧ P p) ↔
    ∃ x ∈ listing.expression.entrances 1 0, x.symbol = .char c ∧ x.state ∈ s ∧ P x.position := by
  constructor
  · rintro ⟨p, hp, hc, hP⟩
    obtain ⟨x, hx, hsymbol, rfl⟩ := bears_augmented_iff.mp hc
    rcases mem_positionsOf_iff.mp hp with ⟨y, hy, -, hs, hposition⟩ | ⟨hposition, -⟩
    · obtain rfl := eq_of_position_eq hy hx hposition
      exact ⟨y, hy, hsymbol, hs, hP⟩
    · exact absurd hposition (Nat.ne_of_lt (position_lt_of_mem_entrances hx))
  · rintro ⟨x, hx, hsymbol, hs, hP⟩
    have hne : x.symbol ≠ .epsilon := fun heq => by
      rw [hsymbol] at heq
      contradiction
    exact ⟨x.position, mem_positionsOf_iff.mpr (.inl ⟨x, hx, hne, hs, rfl⟩),
      bears_augmented_iff.mpr ⟨x, hx, hsymbol, rfl⟩, hP⟩

/-- **A move leads to what follows.** -/
theorem mem_positionsOf_move_iff (hend : Leaf.endMarker ∉ listing.expression.leaves) :
    q ∈ (ofPostfix listing).positionsOf (listing.expression.toNfa.closure
      (listing.expression.toNfa.moveOn s c).toList) ↔
    ∃ p ∈ (ofPostfix listing).positionsOf s,
      (ofRegex (augmented listing.expression)).Bears p c ∧
        q ∈ (ofRegex (augmented listing.expression)).followpos p := by
  rw [exists_bears_iff, mem_positionsOf_iff]
  simp only [mem_closure_moveOn_iff hend]
  constructor
  · rintro (⟨y, hy, hne, ⟨x, hx, hc, hs, hreaches⟩, hq⟩ | ⟨hq, x, hx, hc, hs, hreaches⟩)
    · have hreader : x ∈ listing.expression.readers 1 0 :=
        mem_readers_iff.mpr ⟨hx, by simp [hc]⟩
      exact ⟨x, hx, hc, hs, (reaches_behind_iff hreader).mp
        (.inl ⟨y, mem_readers_iff.mpr ⟨hy, hne⟩, hreaches, hq⟩)⟩
    · have hreader : x ∈ listing.expression.readers 1 0 :=
        mem_readers_iff.mpr ⟨hx, by simp [hc]⟩
      exact ⟨x, hx, hc, hs, (reaches_behind_iff hreader).mp (.inr ⟨hq, hreaches⟩)⟩
  · rintro ⟨x, hx, hc, hs, hq⟩
    have hreader : x ∈ listing.expression.readers 1 0 := mem_readers_iff.mpr ⟨hx, by simp [hc]⟩
    rcases (reaches_behind_iff hreader).mpr hq with ⟨y, hy, hreaches, hposition⟩ | ⟨hq, hreaches⟩
    · obtain ⟨hmine, hne⟩ := mem_readers_iff.mp hy
      exact .inl ⟨y, hmine, hne, ⟨x, hx, hc, hs, hreaches⟩, hposition⟩
    · exact .inr ⟨hq, x, hx, hc, hs, hreaches⟩

/-- **The map takes moves to moves**, and all moves from its image come from moves. -/
theorem folds_positionsOf (hend : Leaf.endMarker ∉ listing.expression.leaves) :
    Exploration.Folds listing.expression.toNfa.subsetMoves
      (ofRegex (augmented listing.expression)).positionMoves
      (ofPostfix listing).positionsOf := by
  have built := listing.expression.built_toNfa
  have htarget : ∀ s c t', (c, t') ∈ (ofRegex (augmented listing.expression)).positionMoves
      ((ofPostfix listing).positionsOf s) → (ofPostfix listing).positionsOf
        (listing.expression.toNfa.closure (listing.expression.toNfa.moveOn s c).toList) = t' :=
    fun s c t' move => OrderedSet.ext fun q =>
      (mem_positionsOf_move_iff hend).trans (mem_iff_of_positionMoves move).symm
  constructor
  · intro s c t move
    obtain ⟨hc, rfl⟩ := Nfa.mem_subsetMoves_iff.mp move
    obtain ⟨q, hq⟩ := built.mem_symbols_iff.mp hc
    obtain ⟨x, hx, hsymbol, hs, -⟩ := (mem_moveOn_toNfa_iff hend).mp hq
    obtain ⟨p, hp, hbears, -⟩ :=
      (exists_bears_iff (P := fun _ => True)).mpr ⟨x, hx, hsymbol, hs, trivial⟩
    obtain ⟨t', move'⟩ := exists_positionMoves_iff.mpr ⟨p, hp, hbears⟩
    rwa [htarget s c t' move']
  · intro s c t' move'
    obtain ⟨p, hp, hbears⟩ := exists_positionMoves_iff.mp ⟨t', move'⟩
    obtain ⟨x, hx, hsymbol, hs, -⟩ :=
      (exists_bears_iff (P := fun _ => True)).mp ⟨p, hp, hbears, trivial⟩
    have hq := (mem_moveOn_toNfa_iff hend).mpr ⟨x, hx, hsymbol, hs, rfl⟩
    exact ⟨_, Nfa.mem_subsetMoves_iff.mpr ⟨built.mem_symbols_iff.mpr ⟨_, hq⟩, rfl⟩,
      htarget s c t' move'⟩

theorem positionsOf_startMembers (listing : Postfix) :
    (ofPostfix listing).positionsOf listing.expression.toNfa.startMembers =
      ((augmented listing.expression).number 1).firstpos := by
  have wf := listing.expression.built_toNfa.wellFormed
  have hstart : ∀ p ∈ [listing.expression.toNfa.start], p < listing.expression.toNfa.size :=
    fun p hp => List.mem_singleton.mp hp ▸ wf.start_lt
  have hmem : ∀ q, q ∈ listing.expression.toNfa.startMembers ↔
      (listing.expression.fragment 0).Reaches (listing.expression.fragment 0).start q := by
    intro q
    refine (Nfa.mem_closure_iff wf.targets_lt hstart).trans ?_
    simp only [List.mem_singleton, exists_eq_left]
    exact path_toNfa_iff
  refine OrderedSet.ext fun q => ?_
  rw [mem_positionsOf_iff, ← reaches_start_iff]
  simp only [hmem, mem_readers_iff, and_assoc]
  rfl

/-- The accept state is what the end position stands for. -/
theorem accept_mem_iff (hend : Leaf.endMarker ∉ listing.expression.leaves) :
    listing.expression.toNfa.accept ∈ s ↔
      (ofRegex (augmented listing.expression)).endPosition ∈
        (ofPostfix listing).positionsOf s := by
  rw [endPosition_augmented hend, Nat.add_comm, mem_positionsOf_iff, or_iff_right]
  · exact (and_iff_right rfl).symm
  · rintro ⟨x, hx, -, -, hposition⟩
    exact Nat.ne_of_lt (position_lt_of_mem_entrances hx) hposition

/-! ## 4. The automata of a text -/

theorem isQuotient_toDfa (hend : Leaf.endMarker ∉ listing.expression.leaves) :
    listing.expression.toNfa.toDfa.IsQuotient (ofRegex (augmented listing.expression)).toDfa
      (ofPostfix listing).positionsOf := by
  have hexplored := explored_exploration (augmented listing.expression)
  have hreached : ∀ t ∈ (ofRegex (augmented listing.expression)).exploration.found,
      ∃ w, Follows (ofRegex (augmented listing.expression)).positionMoves
        ((augmented listing.expression).number 1).firstpos w t :=
    fun t => Exploration.exists_follows_of_mem_found
  rw [← positionsOf_startMembers] at hexplored hreached
  refine (folds_positionsOf hend).isQuotient listing.expression.built_toNfa.wellFormed.explored
    hexplored Nfa.subsetMoves_deterministic positionMoves_unique
    (fun t => Exploration.exists_follows_of_mem_found) hreached fun s => ?_
  rw [decide_eq_true_eq, decide_eq_true_eq]
  exact accept_mem_iff hend

/-- **The followpos automaton of a text is the quotient of its subset automaton** by the map to the
positions that can be read next, and so it has no more states. -/
theorem dfa_isQuotient_syntaxTree (cs : List Char) (conversion : ThompsonConversion)
    (conversion' : SyntaxTreeConversion) (h : thompson cs = .ok conversion)
    (h' : syntaxTree cs = .ok conversion') :
    conversion.dfa.IsQuotient conversion'.dfa conversion.positionsOf ∧
      conversion'.dfa.size ≤ conversion.dfa.size := by
  unfold thompson at h
  unfold syntaxTree at h'
  split at h
  · contradiction
  · rename_i listing hlisting
    obtain rfl := Except.ok.inj h
    split at h'
    · contradiction
    · rename_i listing' hlisting'
      obtain rfl := Except.ok.inj h'
      obtain ⟨hexpresses, -⟩ := Postfix.expresses_of_ofText hlisting
      obtain ⟨e, hexpresses', hexpression⟩ := Postfix.exists_expresses_of_augmentedOfText hlisting'
      obtain rfl := hexpresses'.unique hexpresses
      have hquotient : (ofPostfix listing).dfa.IsQuotient
          (SyntaxTreeConversion.ofPostfix listing').dfa (ofPostfix listing).positionsOf := by
        rw [SyntaxTreeConversion.ofPostfix_dfa, hexpression]
        exact isQuotient_toDfa hexpresses.endMarker_not_mem
      exact ⟨hquotient, hquotient.size_le⟩

/-- The listing of `(a|b)*ε`. -/
def eitherStarListing : Postfix :=
  ⟨[⟨.leaf (.char 'a'), 1⟩, ⟨.leaf (.char 'b'), 3⟩, ⟨.operator .union, 2⟩, ⟨.operator .star, 5⟩,
      ⟨.leaf .epsilon, 6⟩, ⟨.operator .concat, 6⟩],
    .concat (.star (.union (.leaf (.char 'a')) (.leaf (.char 'b')))) (.leaf .epsilon)⟩

/-- The listing of `((a|b)*ε)` and the end marker behind it. -/
def augmentedEitherStarListing : Postfix :=
  ⟨eitherStarListing.items ++ [⟨.leaf .endMarker, 7⟩, ⟨.operator .concat, 7⟩],
    .concat eitherStarListing.expression (.leaf .endMarker)⟩

/-- After each letter the subset automaton is in another state than at the start, and the followpos
automaton never leaves its only state. -/
theorem dfa_isQuotient_syntaxTree_eitherStar :
    thompson "(a|b)*ε".toList = .ok (ofPostfix eitherStarListing) ∧
      syntaxTree "(a|b)*ε".toList = .ok (.ofPostfix augmentedEitherStarListing) ∧
      (∀ i < 3, (ofPostfix eitherStarListing).dfa.Sends
        (SyntaxTreeConversion.ofPostfix augmentedEitherStarListing).dfa
        (ofPostfix eitherStarListing).positionsOf i 0) := by
  have hlisting : Postfix.ofText "(a|b)*ε".toList = .ok eitherStarListing := by decide
  have haugmented : Postfix.augmentedOfText "(a|b)*ε".toList = .ok augmentedEitherStarListing := by
    decide
  have h : thompson "(a|b)*ε".toList = .ok (ofPostfix eitherStarListing) := by
    rw [thompson, hlisting]
  have h' : syntaxTree "(a|b)*ε".toList = .ok (.ofPostfix augmentedEitherStarListing) := by
    rw [syntaxTree, haugmented]
  have hsize : (ofPostfix eitherStarListing).dfa.size = 3 := by decide +kernel
  have hsize' : (SyntaxTreeConversion.ofPostfix augmentedEitherStarListing).dfa.size = 1 := by
    decide +kernel
  refine ⟨h, h', fun i hi => ?_⟩
  obtain ⟨hquotient, -⟩ := dfa_isQuotient_syntaxTree "(a|b)*ε".toList _ _ h h'
  obtain ⟨j, hj, hsends⟩ := hquotient.total i (hsize ▸ hi)
  rw [hsize', Nat.lt_one_iff] at hj
  exact hj ▸ hsends

end ThompsonConversion

end FormalLang
