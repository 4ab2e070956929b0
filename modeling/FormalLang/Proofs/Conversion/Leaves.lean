import FormalLang.Proofs.Automaton.Silent
import FormalLang.Proofs.Position.Tables

/-!
# The two constructions agree leaf by leaf

Thompson's construction gives every leaf two states, and the followpos construction gives it a
position (`Regex.entrances` lists both).  What the attributes of a tree say about positions is what
paths without input through the fragment say about states (`Regex.Mirrors`):

* a position is a first one if its leaf is entered from the start of the fragment;
* it is a last one if the accept state is reached behind its leaf;
* it precedes another position if the leaf of that one is entered behind its own.

**Why through every operator.**  The attributes of an operator are put together from those of its
operands just as its paths are (`Fragment.Tight.reaches_concat_left_iff` and its companions).  Both
keep the operands apart: a state or a position of the one never belongs to the other
(`Regex.Respects`).
-/

namespace FormalLang

/-! ## 1. Leaves with their states and positions -/

/-- A leaf, its position, and the state that its edge leaves. -/
structure Entrance where
  symbol : Leaf
  position : Nat
  state : Nat
  deriving DecidableEq

namespace Regex

/-- The leaves of an expression from left to right, with positions from `first` and states from
`free` on. -/
def entrances : Regex → Nat → Nat → List Entrance
  | .leaf s, first, free => [⟨s, first, free⟩]
  | .concat l r, first, free =>
    l.entrances first free ++ r.entrances (first + l.leafCount) (l.fragment free).next
  | .union l r, first, free =>
    l.entrances first free ++ r.entrances (first + l.leafCount) (l.fragment free).next
  | .star e, first, free => e.entrances first free

variable {l r e : Regex} {first free : Nat} {x : Entrance}

theorem length_entrances : ∀ (e : Regex) (first free : Nat),
    (e.entrances first free).length = e.leafCount
  | .leaf _, _, _ => rfl
  | .concat l r, first, free => by
    rw [entrances, List.length_append, length_entrances l, length_entrances r, leafCount]
  | .union l r, first, free => by
    rw [entrances, List.length_append, length_entrances l, length_entrances r, leafCount]
  | .star e, first, free => length_entrances e first free

/-- The leaves are those that the positions are given to. -/
theorem marks_eq_map_entrances : ∀ (e : Regex) (first free : Nat),
    (e.number first).marks = (e.entrances first free).map fun x => (x.symbol, x.position)
  | .leaf _, _, _ => rfl
  | .concat l r, first, free => by
    rw [number, PositionTree.marks, entrances, List.map_append, marks_eq_map_entrances l first free,
      marks_eq_map_entrances r _ (l.fragment free).next]
  | .union l r, first, free => by
    rw [number, PositionTree.marks, entrances, List.map_append, marks_eq_map_entrances l first free,
      marks_eq_map_entrances r _ (l.fragment free).next]
  | .star e, first, free => marks_eq_map_entrances e first free

theorem mem_positions_of_mem_entrances (h : x ∈ e.entrances first free) :
    x.position ∈ (e.number first).positions := by
  rw [PositionTree.positions, marks_eq_map_entrances e first free, List.map_map]
  exact List.mem_map_of_mem h

/-- The positions of two operands are different. -/
theorem disjoint_positions (l r : Regex) (first : Nat) :
    List.Disjoint (l.number first).positions (r.number (first + l.leafCount)).positions := by
  have hnodup := PositionTree.nodup_positions_number (.concat l r) first
  rw [number, PositionTree.positions_concat] at hnodup
  exact (List.nodup_append'.mp hnodup).2.2

theorem le_next_fragment (e : Regex) (free : Nat) : free ≤ (e.fragment free).next := by
  have := (e.tight_fragment free).start
  omega

/-- The two states of a leaf belong to the fragment of the expression. -/
theorem bounds_of_mem_entrances : ∀ {e : Regex} {first free : Nat}, x ∈ e.entrances first free →
    free ≤ x.state ∧ x.state + 1 < (e.fragment free).next
  | .leaf s, first, free, h => by
    rw [List.mem_singleton.mp h]
    exact ⟨Nat.le_refl free, Nat.lt_succ_self _⟩
  | .concat l r, first, free, h => by
    have hl := l.le_next_fragment free
    have hr := r.le_next_fragment (l.fragment free).next
    simp only [fragment, Fragment.concat]
    rcases List.mem_append.mp h with h | h
    · have := bounds_of_mem_entrances h
      omega
    · have := bounds_of_mem_entrances h
      omega
  | .union l r, first, free, h => by
    have hl := l.le_next_fragment free
    have hr := r.le_next_fragment (l.fragment free).next
    simp only [fragment, Fragment.union]
    rcases List.mem_append.mp h with h | h
    · have := bounds_of_mem_entrances h
      omega
    · have := bounds_of_mem_entrances h
      omega
  | .star e, first, free, h => by
    simp only [fragment, Fragment.star]
    have := bounds_of_mem_entrances (e := e) h
    omega

theorem owns_behind_of_mem_entrances (h : x ∈ e.entrances first free) :
    (e.fragment free).Owns free (x.state + 1) := by
  have := bounds_of_mem_entrances h
  exact ⟨by omega, this.2⟩

/-- **Only leaves read characters.** -/
theorem mem_edges_char_iff {c : Char} {p q : Nat} : ∀ (e : Regex) (first free : Nat),
    ⟨p, .char c, q⟩ ∈ (e.fragment free).edges ↔
      ∃ x ∈ e.entrances first free, x.symbol.label = .char c ∧ x.state = p ∧ q = p + 1
  | .leaf s, first, free => by
    simp only [fragment, Fragment.ofLeaf, entrances, List.mem_singleton, exists_eq_left,
      Edge.mk.injEq]
    grind
  | .concat l r, first, free => by
    rw [fragment, Fragment.mem_edges_concat, mem_edges_char_iff l first,
      mem_edges_char_iff r (first + l.leafCount)]
    simp [entrances, or_and_right, exists_or]
  | .union l r, first, free => by
    rw [fragment, Fragment.mem_edges_union, mem_edges_char_iff l first,
      mem_edges_char_iff r (first + l.leafCount)]
    simp [entrances, or_and_right, exists_or]
  | .star e, first, free => by
    rw [fragment, Fragment.mem_edges_star, mem_edges_char_iff e first]
    simp [entrances]

/-! ## 2. Leaves of an expression and others -/

/-- Whether those leaves of a list that have a state or the position in common with an expression
are leaves of it. -/
def Respects (all : List Entrance) (e : Regex) (first free : Nat) : Prop :=
  ∀ x ∈ all, (e.fragment free).Owns free x.state ∨ x.position ∈ (e.number first).positions →
    x ∈ e.entrances first free

section Respects

variable {all : List Entrance}

/-- **What belongs to one of two operands is a leaf of that one**, whatever operator has them. -/
theorem Respects.operands {whole : Regex} (h : Respects all whole first free)
    (hnext : (r.fragment (l.fragment free).next).next ≤ (whole.fragment free).next)
    (hpositions : (whole.number first).positions =
      (l.number first).positions ++ (r.number (first + l.leafCount)).positions)
    (hentrances : whole.entrances first free =
      l.entrances first free ++ r.entrances (first + l.leafCount) (l.fragment free).next) :
    Respects all l first free ∧ Respects all r (first + l.leafCount) (l.fragment free).next := by
  have hdisjoint := disjoint_positions l r first
  have hl := l.le_next_fragment free
  have hr := r.le_next_fragment (l.fragment free).next
  simp only [Respects, hpositions, hentrances, List.mem_append] at h
  constructor
  · intro x hx hmine
    refine (h x hx (hmine.imp (fun howns => ?_) .inl)).resolve_right fun hother => ?_
    · exact ⟨howns.1, Nat.lt_of_lt_of_le howns.2 (Nat.le_trans hr hnext)⟩
    rcases hmine with hmine | hmine
    · exact Nat.not_lt.mpr (bounds_of_mem_entrances hother).1 hmine.2
    · exact hdisjoint hmine (mem_positions_of_mem_entrances hother)
  · intro x hx hmine
    refine (h x hx (hmine.imp (fun howns => ?_) .inr)).resolve_left fun hother => ?_
    · exact ⟨Nat.le_trans hl howns.1, Nat.lt_of_lt_of_le howns.2 hnext⟩
    rcases hmine with hmine | hmine
    · have := bounds_of_mem_entrances hother
      have := hmine.1
      omega
    · exact hdisjoint (mem_positions_of_mem_entrances hother) hmine

theorem Respects.concat (h : Respects all (.concat l r) first free) :
    Respects all l first free ∧ Respects all r (first + l.leafCount) (l.fragment free).next :=
  h.operands (Nat.le_refl _) (PositionTree.positions_concat _ _) rfl

theorem Respects.union (h : Respects all (.union l r) first free) :
    Respects all l first free ∧ Respects all r (first + l.leafCount) (l.fragment free).next :=
  h.operands (Nat.le_add_right _ 2) (PositionTree.positions_union _ _) rfl

theorem Respects.star (h : Respects all (.star e) first free) : Respects all e first free := by
  refine fun x hx hmine => h x hx (hmine.imp_left fun howns => ?_)
  simp only [Fragment.Owns, fragment, Fragment.star] at *
  omega

/-- The states of a union are none of a leaf. -/
theorem Respects.state_ne_union (h : Respects all (.union l r) first free) (hx : x ∈ all) :
    x.state ≠ (r.fragment (l.fragment free).next).next ∧
      x.state ≠ (r.fragment (l.fragment free).next).next + 1 := by
  have hl := l.le_next_fragment free
  have hr := r.le_next_fragment (l.fragment free).next
  by_cases howns : (fragment (.union l r) free).Owns free x.state
  · rcases List.mem_append.mp (h x hx (.inl howns)) with hmem | hmem
    · have := bounds_of_mem_entrances hmem
      omega
    · have := bounds_of_mem_entrances hmem
      omega
  · simp only [Fragment.Owns, fragment, Fragment.union] at howns
    omega

/-- The states of a star are none of a leaf. -/
theorem Respects.state_ne_star (h : Respects all (.star e) first free) (hx : x ∈ all) :
    x.state ≠ (e.fragment free).next ∧ x.state ≠ (e.fragment free).next + 1 := by
  have he := e.le_next_fragment free
  by_cases howns : (fragment (.star e) free).Owns free x.state
  · have hmem : x ∈ e.entrances first free := h x hx (.inl howns)
    have := bounds_of_mem_entrances hmem
    omega
  · simp only [Fragment.Owns, fragment, Fragment.star] at howns
    omega

end Respects

/-! ## 3. Attributes as paths -/

/-- **The attributes of an expression are what is reached without input** through its fragment, for
a list of leaves of which it may have some. -/
structure Mirrors (all : List Entrance) (e : Regex) (first free : Nat) : Prop where
  through : (e.fragment free).Reaches (e.fragment free).start (e.fragment free).accept ↔
    (e.number first).nullable = true
  begins : ∀ y ∈ all, (e.fragment free).Reaches (e.fragment free).start y.state ↔
    y.position ∈ (e.number first).firstpos
  ends : ∀ x ∈ all, x ∈ e.entrances first free →
    ((e.fragment free).Reaches (x.state + 1) (e.fragment free).accept ↔
      x.position ∈ (e.number first).lastpos)
  precedes : ∀ x ∈ all, x ∈ e.entrances first free → ∀ y ∈ all,
    ((e.fragment free).Reaches (x.state + 1) y.state ↔
      (e.number first).Precedes x.position y.position)

section Mirrors

open Fragment PositionTree

variable {all : List Entrance}

theorem mirrors_leaf (hall : ∀ x ∈ all, x.symbol ≠ .epsilon) {s : Leaf}
    (h : Respects all (.leaf s) first free) : Mirrors all (.leaf s) first free := by
  have hstates : ∀ y ∈ all, (y.state = free ↔ s ≠ .epsilon ∧ y.position = first) ∧
      y.state ≠ free + 1 := by
    intro y hy
    have hmine : y.state = free ∨ y.state = free + 1 ∨ y.position = first →
        y = ⟨s, first, free⟩ := by
      refine fun hmine => List.mem_singleton.mp (h y hy ?_)
      simp only [Owns, fragment, Fragment.ofLeaf, positions, number, marks, List.map_cons,
        List.map_nil, List.mem_singleton]
      omega
    have hsymbol := hall y hy
    grind
  refine ⟨?_, fun y hy => ?_, fun x hx hmem => ?_, fun x hx hmem y hy => ?_⟩
  · refine reaches_ofLeaf_iff.trans (.trans ?_ nullable_leaf_iff.symm)
    simp [fragment, Fragment.ofLeaf]
  · refine reaches_ofLeaf_iff.trans (.trans ?_ mem_firstpos_leaf_iff.symm)
    have hstate := hstates y hy
    simp only [fragment, Fragment.ofLeaf]
    grind
  · have hsymbol := hall x hx
    obtain rfl := List.mem_singleton.mp hmem
    exact iff_of_true (.refl _) (mem_lastpos_leaf_iff.mpr ⟨hsymbol, rfl⟩)
  · have hsymbol := hall x hx
    obtain rfl := List.mem_singleton.mp hmem
    refine iff_of_false (fun hreaches => ?_) not_precedes_leaf
    rcases reaches_ofLeaf_iff.mp hreaches with heq | ⟨hs, -⟩
    · exact (hstates y hy).2 heq.symm
    · exact hsymbol hs

theorem Mirrors.concat (hl : Mirrors all l first free)
    (hr : Mirrors all r (first + l.leafCount) (l.fragment free).next) :
    Mirrors all (.concat l r) first free := by
  have tightl := l.tight_fragment free
  have tightr := r.tight_fragment (l.fragment free).next
  have hdisjoint := disjoint_positions l r first
  refine ⟨?_, fun y hy => ?_, fun x hx hmem => ?_, fun x hx hmem y hy => ?_⟩
  · refine (tightl.reaches_concat_exit_iff tightr tightl.start).trans ?_
    rw [hl.through, hr.through]
    exact nullable_concat_iff.symm
  · refine (tightl.reaches_concat_left_iff tightr tightl.start).trans ?_
    rw [hl.begins y hy, hl.through, hr.begins y hy]
    exact mem_firstpos_concat_iff.symm
  · refine .trans ?_ mem_lastpos_concat_iff.symm
    rcases List.mem_append.mp hmem with h | h
    · have hposition := mem_positions_of_mem_entrances h
      rw [or_iff_right fun h' => hdisjoint hposition (mem_positions_of_lastpos h'),
        ← hl.ends x hx h, ← hr.through, and_comm]
      exact tightl.reaches_concat_exit_iff tightr (owns_behind_of_mem_entrances h)
    · have hposition := mem_positions_of_mem_entrances h
      rw [or_iff_left fun h' => hdisjoint (mem_positions_of_lastpos h'.2) hposition,
        ← hr.ends x hx h]
      exact tightl.reaches_concat_right_iff tightr (owns_behind_of_mem_entrances h)
  · refine .trans ?_ precedes_concat_iff.symm
    rcases List.mem_append.mp hmem with h | h
    · have hposition := mem_positions_of_mem_entrances h
      have hnot : ¬(r.number _).Precedes x.position y.position :=
        fun h' => hdisjoint hposition h'.mem_positions.1
      rw [or_iff_left hnot, ← hl.precedes x hx h y hy, ← hl.ends x hx h, ← hr.begins y hy]
      exact tightl.reaches_concat_left_iff tightr (owns_behind_of_mem_entrances h)
    · have hposition := mem_positions_of_mem_entrances h
      have hnot : ¬(l.number first).Precedes x.position y.position :=
        fun h' => hdisjoint h'.mem_positions.1 hposition
      rw [or_iff_right hnot,
        or_iff_left fun h' => hdisjoint (mem_positions_of_lastpos h'.1) hposition,
        ← hr.precedes x hx h y hy]
      exact tightl.reaches_concat_right_iff tightr (owns_behind_of_mem_entrances h)

theorem Mirrors.union (h : Respects all (.union l r) first free) (hl : Mirrors all l first free)
    (hr : Mirrors all r (first + l.leafCount) (l.fragment free).next) :
    Mirrors all (.union l r) first free := by
  have tightl := l.tight_fragment free
  have tightr := r.tight_fragment (l.fragment free).next
  have hdisjoint := disjoint_positions l r first
  -- no leaf is entered at the exit of the union, so that paths to leaves stay in their operand
  have hleft : ∀ {p : Nat}, (l.fragment free).Owns free p → ∀ y ∈ all,
      ((fragment (.union l r) free).Reaches p y.state ↔ (l.fragment free).Reaches p y.state) :=
    fun hp y hy => (tightl.reaches_union_left_iff tightr hp).trans
      (or_iff_left fun h' => (h.state_ne_union hy).2 h'.2)
  have hright : ∀ {p : Nat}, (r.fragment (l.fragment free).next).Owns (l.fragment free).next p →
      ∀ y ∈ all, ((fragment (.union l r) free).Reaches p y.state ↔
        (r.fragment (l.fragment free).next).Reaches p y.state) :=
    fun hp y hy => (tightl.reaches_union_right_iff tightr hp).trans
      (or_iff_left fun h' => (h.state_ne_union hy).2 h'.2)
  refine ⟨?_, fun y hy => ?_, fun x hx hmem => ?_, fun x hx hmem y hy => ?_⟩
  · refine (tightl.reaches_union_entry_iff tightr).trans (.trans ?_ nullable_union_iff.symm)
    rw [← hl.through, ← hr.through]
    exact (or_iff_right (Nat.ne_of_lt (Nat.lt_succ_self _))).trans
      (or_congr (tightl.reaches_union_exit_left_iff tightr tightl.start)
        (tightl.reaches_union_exit_right_iff tightr tightr.start))
  · refine (tightl.reaches_union_entry_iff tightr).trans (.trans ?_ mem_firstpos_union_iff.symm)
    rw [← hl.begins y hy, ← hr.begins y hy, or_iff_right (h.state_ne_union hy).1.symm]
    exact or_congr (hleft tightl.start y hy) (hright tightr.start y hy)
  · refine .trans ?_ mem_lastpos_union_iff.symm
    rcases List.mem_append.mp hmem with h' | h'
    · have hposition := mem_positions_of_mem_entrances h'
      rw [or_iff_left fun h => hdisjoint hposition (mem_positions_of_lastpos h),
        ← hl.ends x hx h']
      exact tightl.reaches_union_exit_left_iff tightr (owns_behind_of_mem_entrances h')
    · have hposition := mem_positions_of_mem_entrances h'
      rw [or_iff_right fun h => hdisjoint (mem_positions_of_lastpos h) hposition,
        ← hr.ends x hx h']
      exact tightl.reaches_union_exit_right_iff tightr (owns_behind_of_mem_entrances h')
  · refine .trans ?_ precedes_union_iff.symm
    rcases List.mem_append.mp hmem with h' | h'
    · have hposition := mem_positions_of_mem_entrances h'
      rw [or_iff_left fun h => hdisjoint hposition h.mem_positions.1, ← hl.precedes x hx h' y hy]
      exact hleft (owns_behind_of_mem_entrances h') y hy
    · have hposition := mem_positions_of_mem_entrances h'
      rw [or_iff_right fun h => hdisjoint h.mem_positions.1 hposition, ← hr.precedes x hx h' y hy]
      exact hright (owns_behind_of_mem_entrances h') y hy

theorem Mirrors.star (h : Respects all (.star e) first free) (he : Mirrors all e first free) :
    Mirrors all (.star e) first free := by
  have tight := e.tight_fragment free
  -- no leaf is entered at the exit of the star, so that a path to a leaf goes round at most
  have hinside : ∀ {p : Nat}, (e.fragment free).Owns free p → ∀ y ∈ all,
      ((e.fragment free).star.Reaches p y.state ↔ (e.fragment free).Reaches p y.state ∨
        (e.fragment free).Reaches p (e.fragment free).accept ∧
          (e.fragment free).Reaches (e.fragment free).start y.state) :=
    fun hp y hy => (tight.reaches_star_iff hp).trans
      (or_congr_right (and_congr_right fun _ => or_iff_left (h.state_ne_star hy).2))
  refine ⟨?_, fun y hy => ?_, fun x hx hmem => ?_, fun x hx hmem y hy => ?_⟩
  · exact iff_of_true (tight.reaches_star_entry_iff.mpr (.inr (.inl rfl))) rfl
  · refine tight.reaches_star_entry_iff.trans (.trans ?_ (he.begins y hy))
    rw [or_iff_right (h.state_ne_star hy).1.symm, or_iff_right (h.state_ne_star hy).2,
      hinside tight.start y hy]
    exact or_iff_left_of_imp And.right
  · exact (tight.reaches_star_exit_iff (owns_behind_of_mem_entrances hmem)).trans
      (he.ends x hx hmem)
  · refine (hinside (owns_behind_of_mem_entrances hmem) y hy).trans
      (.trans ?_ precedes_star_iff.symm)
    rw [← he.precedes x hx hmem y hy, ← he.ends x hx hmem, ← he.begins y hy]

/-- **Every expression mirrors its fragment**, by its structure. -/
theorem mirrors_of_respects (hall : ∀ x ∈ all, x.symbol ≠ .epsilon) :
    ∀ {e : Regex} {first free : Nat}, Respects all e first free → Mirrors all e first free
  | .leaf _, _, _, h => mirrors_leaf hall h
  | .concat _ _, _, _, h =>
    (mirrors_of_respects hall h.concat.1).concat (mirrors_of_respects hall h.concat.2)
  | .union _ _, _, _, h =>
    (mirrors_of_respects hall h.union.1).union h (mirrors_of_respects hall h.union.2)
  | .star _, _, _, h => (mirrors_of_respects hall h.star).star h

end Mirrors

end Regex

end FormalLang
