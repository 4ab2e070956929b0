import FormalLang.Position.Tree
import FormalLang.Proofs.Repetition
import Mathlib.Data.List.Nodup

/-!
# The words of positions

A tree reads words of positions: those of its expression, with the position of a leaf in place of
what the leaf denotes (`Reads`).  Neighbours decide which words these are (`local_of_nodup`): a word
begins with a position of `firstpos`, ends with one of `lastpos`, and each position in it may come
right after the one before (`Precedes`).

**Why neighbours suffice.**  No position is at two leaves, so that a position shows which operand it
belongs to.  Once a run has left the left operand of a concatenation it stays in the right one
(`runs_concat_iff`), and a run through a star is a run through its operand each time it comes round
(`runs_star_iff`).
-/

namespace FormalLang

open scoped Computability

/-! ## 1. Positions -/

theorem Regex.length_leaves : ∀ (e : Regex), e.leaves.length = e.leafCount
  | .leaf _ => rfl
  | .concat l r => by
    rw [leaves, List.length_append, length_leaves l, length_leaves r, leafCount]
  | .union l r => by
    rw [leaves, List.length_append, length_leaves l, length_leaves r, leafCount]
  | .star e => length_leaves e

namespace PositionTree

/-- The leaves with their positions, from left to right. -/
def marks : PositionTree → List (Leaf × Nat)
  | .leaf s p => [(s, p)]
  | .concat l r => l.marks ++ r.marks
  | .union l r => l.marks ++ r.marks
  | .star e => e.marks

/-- The positions, from left to right. -/
def positions (t : PositionTree) : List Nat := t.marks.map Prod.snd

@[simp] theorem positions_concat (l r : PositionTree) :
    (concat l r).positions = l.positions ++ r.positions := List.map_append

@[simp] theorem positions_union (l r : PositionTree) :
    (union l r).positions = l.positions ++ r.positions := List.map_append

/-- Numbering keeps the leaves in their order. -/
theorem marks_number : ∀ (e : Regex) (first : Nat), (e.number first).marks = e.leaves.zipIdx first
  | .leaf s, first => rfl
  | .concat l r, first => by
    rw [Regex.number, marks, marks_number l, marks_number r, Regex.leaves, List.zipIdx_append,
      Regex.length_leaves]
  | .union l r, first => by
    rw [Regex.number, marks, marks_number l, marks_number r, Regex.leaves, List.zipIdx_append,
      Regex.length_leaves]
  | .star e, first => marks_number e first

/-- **No position is at two leaves.** -/
theorem nodup_positions_number (e : Regex) (first : Nat) : (e.number first).positions.Nodup := by
  rw [positions, marks_number, List.zipIdx_map_snd]
  exact List.nodup_range'

/-- The positions are counted from the first one on. -/
theorem mem_positions_number_iff {e : Regex} {first p : Nat} :
    p ∈ (e.number first).positions ↔ first ≤ p ∧ p < first + e.leafCount := by
  rw [positions, marks_number, List.zipIdx_map_snd, List.mem_range'_1, Regex.length_leaves]

theorem mem_leaves_of_mark {e : Regex} {first p : Nat} {s : Leaf}
    (h : (s, p) ∈ (e.number first).marks) : s ∈ e.leaves := by
  rw [marks_number] at h
  exact List.fst_mem_of_mem_zipIdx h

/-! ## 2. Attributes -/

section Attributes

variable {l r e : PositionTree} {s : Leaf} {p q : Nat}

theorem nullable_leaf_iff : (leaf s p).nullable = true ↔ s = .epsilon := by
  unfold nullable attributes Attributes.ofLeaf
  split <;> simp_all

theorem mem_firstpos_leaf_iff : q ∈ (leaf s p).firstpos ↔ s ≠ .epsilon ∧ q = p := by
  unfold firstpos attributes Attributes.ofLeaf
  split <;> simp_all

theorem mem_lastpos_leaf_iff : q ∈ (leaf s p).lastpos ↔ s ≠ .epsilon ∧ q = p := by
  unfold lastpos attributes Attributes.ofLeaf
  split <;> simp_all

theorem nullable_concat_iff :
    (concat l r).nullable = true ↔ l.nullable = true ∧ r.nullable = true :=
  Bool.and_eq_true_iff

theorem mem_firstpos_concat_iff : q ∈ (concat l r).firstpos ↔
    q ∈ l.firstpos ∨ l.nullable = true ∧ q ∈ r.firstpos := by
  show q ∈ (if l.nullable then l.firstpos ∪ r.firstpos else l.firstpos) ↔ _
  split <;> simp_all

theorem mem_lastpos_concat_iff : q ∈ (concat l r).lastpos ↔
    q ∈ r.lastpos ∨ r.nullable = true ∧ q ∈ l.lastpos := by
  show q ∈ (if r.nullable then r.lastpos ∪ l.lastpos else r.lastpos) ↔ _
  split <;> simp_all

theorem nullable_union_iff :
    (union l r).nullable = true ↔ l.nullable = true ∨ r.nullable = true :=
  Bool.or_eq_true_iff

theorem mem_firstpos_union_iff :
    q ∈ (union l r).firstpos ↔ q ∈ l.firstpos ∨ q ∈ r.firstpos :=
  OrderedSet.mem_union

theorem mem_lastpos_union_iff : q ∈ (union l r).lastpos ↔ q ∈ l.lastpos ∨ q ∈ r.lastpos :=
  OrderedSet.mem_union

/-- **The attributes name positions of leaves that read something.** -/
theorem exists_mark_of_attributes : ∀ {t : PositionTree} {p : Nat},
    p ∈ t.firstpos ∨ p ∈ t.lastpos → ∃ s, s ≠ .epsilon ∧ (s, p) ∈ t.marks
  | .leaf s p', p, h => by
    rw [mem_firstpos_leaf_iff, mem_lastpos_leaf_iff, or_self] at h
    exact ⟨s, h.1, List.mem_singleton.mpr (congrArg _ h.2)⟩
  | .concat l r, p, h => by
    have hl : p ∈ l.firstpos ∨ p ∈ l.lastpos → ∃ s, s ≠ .epsilon ∧ (s, p) ∈ l.marks ++ r.marks :=
      fun h => (exists_mark_of_attributes h).imp fun _ => .imp_right (List.mem_append_left _)
    have hr : p ∈ r.firstpos ∨ p ∈ r.lastpos → ∃ s, s ≠ .epsilon ∧ (s, p) ∈ l.marks ++ r.marks :=
      fun h => (exists_mark_of_attributes h).imp fun _ => .imp_right (List.mem_append_right _)
    rw [mem_firstpos_concat_iff, mem_lastpos_concat_iff] at h
    rcases h with (h | ⟨-, h⟩) | (h | ⟨-, h⟩)
    · exact hl (.inl h)
    · exact hr (.inl h)
    · exact hr (.inr h)
    · exact hl (.inr h)
  | .union l r, p, h => by
    have hl : p ∈ l.firstpos ∨ p ∈ l.lastpos → ∃ s, s ≠ .epsilon ∧ (s, p) ∈ l.marks ++ r.marks :=
      fun h => (exists_mark_of_attributes h).imp fun _ => .imp_right (List.mem_append_left _)
    have hr : p ∈ r.firstpos ∨ p ∈ r.lastpos → ∃ s, s ≠ .epsilon ∧ (s, p) ∈ l.marks ++ r.marks :=
      fun h => (exists_mark_of_attributes h).imp fun _ => .imp_right (List.mem_append_right _)
    rw [mem_firstpos_union_iff, mem_lastpos_union_iff] at h
    rcases h with (h | h) | (h | h)
    · exact hl (.inl h)
    · exact hr (.inl h)
    · exact hl (.inr h)
    · exact hr (.inr h)
  | .star e, p, h => exists_mark_of_attributes (t := e) h

theorem mem_positions_of_attributes {t : PositionTree} (h : p ∈ t.firstpos ∨ p ∈ t.lastpos) :
    p ∈ t.positions := by
  obtain ⟨s, -, hmark⟩ := exists_mark_of_attributes h
  exact List.mem_map_of_mem hmark

theorem mem_positions_of_firstpos {t : PositionTree} (h : p ∈ t.firstpos) : p ∈ t.positions :=
  mem_positions_of_attributes (.inl h)

theorem mem_positions_of_lastpos {t : PositionTree} (h : p ∈ t.lastpos) : p ∈ t.positions :=
  mem_positions_of_attributes (.inr h)

end Attributes

/-! ## 3. Words and neighbours -/

/-- **Whether a tree reads a word of positions.**  A leaf for the empty word reads nothing. -/
inductive Reads : PositionTree → List Nat → Prop where
  | empty (p : Nat) : Reads (.leaf .epsilon p) []
  | leaf {s : Leaf} (p : Nat) (hs : s ≠ .epsilon) : Reads (.leaf s p) [p]
  | concat {l r : PositionTree} {u v : List Nat} (hl : Reads l u) (hr : Reads r v) :
      Reads (.concat l r) (u ++ v)
  | unionLeft {l r : PositionTree} {w : List Nat} (h : Reads l w) : Reads (.union l r) w
  | unionRight {l r : PositionTree} {w : List Nat} (h : Reads r w) : Reads (.union l r) w
  | starNil {e : PositionTree} : Reads (.star e) []
  | starCons {e : PositionTree} {u v : List Nat} (h : Reads e u) (hs : Reads (.star e) v) :
      Reads (.star e) (u ++ v)

/-- Whether a position can come right after another one. -/
inductive Precedes : PositionTree → Nat → Nat → Prop where
  | concatLeft {l r : PositionTree} {p q : Nat} (h : Precedes l p q) : Precedes (.concat l r) p q
  | concatRight {l r : PositionTree} {p q : Nat} (h : Precedes r p q) : Precedes (.concat l r) p q
  | across {l r : PositionTree} {p q : Nat} (hp : p ∈ l.lastpos) (hq : q ∈ r.firstpos) :
      Precedes (.concat l r) p q
  | unionLeft {l r : PositionTree} {p q : Nat} (h : Precedes l p q) : Precedes (.union l r) p q
  | unionRight {l r : PositionTree} {p q : Nat} (h : Precedes r p q) : Precedes (.union l r) p q
  | star {e : PositionTree} {p q : Nat} (h : Precedes e p q) : Precedes (.star e) p q
  | around {e : PositionTree} {p q : Nat} (hp : p ∈ e.lastpos) (hq : q ∈ e.firstpos) :
      Precedes (.star e) p q

/-- **Whether a word can be read behind a position**, going from neighbour to neighbour. -/
inductive Runs (t : PositionTree) : Nat → List Nat → Prop where
  | stop {p : Nat} (h : p ∈ t.lastpos) : Runs t p []
  | step {p q : Nat} {w : List Nat} (h : Precedes t p q) (rest : Runs t q w) : Runs t p (q :: w)

/-- **Whether neighbours decide** which words a tree reads. -/
def Local (t : PositionTree) : Prop :=
  ∀ p w, Reads t (p :: w) ↔ p ∈ t.firstpos ∧ Runs t p w

section Words

variable {l r e t : PositionTree} {s : Leaf} {p q : Nat} {w : List Nat}

theorem reads_leaf_iff :
    Reads (.leaf s p) w ↔ s = .epsilon ∧ w = [] ∨ s ≠ .epsilon ∧ w = [p] := by
  constructor
  · intro h
    cases h with
    | empty _ => exact .inl ⟨rfl, rfl⟩
    | leaf _ hs => exact .inr ⟨hs, rfl⟩
  · rintro (⟨rfl, rfl⟩ | ⟨hs, rfl⟩)
    · exact .empty p
    · exact .leaf p hs

theorem reads_concat_iff :
    Reads (.concat l r) w ↔ ∃ u v, w = u ++ v ∧ Reads l u ∧ Reads r v := by
  constructor
  · intro h
    cases h with
    | concat hl hr => exact ⟨_, _, rfl, hl, hr⟩
  · rintro ⟨u, v, rfl, hl, hr⟩
    exact .concat hl hr

theorem reads_union_iff : Reads (.union l r) w ↔ Reads l w ∨ Reads r w := by
  constructor
  · intro h
    cases h with
    | unionLeft h => exact .inl h
    | unionRight h => exact .inr h
  · rintro (h | h)
    · exact .unionLeft h
    · exact .unionRight h

/-- The words that a tree reads, as a language. -/
def language (t : PositionTree) : Language Nat := {w | Reads t w}

theorem Reads.mem_kstar : ∀ {t : PositionTree} {w : List Nat}, Reads t w → t = .star e →
    w ∈ e.language∗
  | _, _, .starNil, rfl => Language.nil_mem_kstar _
  | _, _, .starCons hu hv, rfl => kstar_cons hu (hv.mem_kstar rfl)

/-- **The star of a tree repeats its words.** -/
theorem reads_star_iff_mem_kstar : Reads (.star e) w ↔ w ∈ e.language∗ := by
  constructor
  · exact fun h => h.mem_kstar rfl
  · intro h
    induction h using kstar_induction with
    | nil => exact .starNil
    | cons _ _ hu _ ih => exact .starCons hu ih

/-- A word of a star that is not empty begins with one of the operand that is not empty. -/
theorem reads_star_cons_iff :
    Reads (.star e) (p :: w) ↔ ∃ u v, w = u ++ v ∧ Reads e (p :: u) ∧ Reads (.star e) v := by
  constructor
  · intro h
    have hrounds := reads_star_iff_mem_kstar.mp h
    generalize hword : p :: w = word at hrounds
    induction hrounds using kstar_induction with
    | nil => contradiction
    | cons u v hu hv ih =>
      cases u with
      | nil => exact ih hword
      | cons q u =>
        obtain ⟨rfl, rfl⟩ := List.cons.inj hword
        exact ⟨u, v, rfl, hu, reads_star_iff_mem_kstar.mpr hv⟩
  · rintro ⟨u, v, rfl, hu, hv⟩
    exact .starCons hu hv

/-- **The empty word belongs to nullable trees.** -/
theorem reads_nil_iff : ∀ {t : PositionTree}, Reads t [] ↔ t.nullable = true
  | .leaf s p => by
    rw [reads_leaf_iff, nullable_leaf_iff]
    simp
  | .concat l r => by
    rw [nullable_concat_iff, ← reads_nil_iff (t := l), ← reads_nil_iff (t := r), reads_concat_iff]
    constructor
    · rintro ⟨u, v, hw, hl, hr⟩
      obtain ⟨rfl, rfl⟩ := List.append_eq_nil_iff.mp hw.symm
      exact ⟨hl, hr⟩
    · rintro ⟨hl, hr⟩
      exact ⟨[], [], rfl, hl, hr⟩
  | .union l r => by
    rw [nullable_union_iff, ← reads_nil_iff (t := l), ← reads_nil_iff (t := r), reads_union_iff]
  | .star e => ⟨fun _ => rfl, fun _ => .starNil⟩

theorem Precedes.mem_positions (h : Precedes t p q) : p ∈ t.positions ∧ q ∈ t.positions := by
  induction h with
  | concatLeft _ ih =>
    simp only [positions_concat, List.mem_append]
    exact ⟨.inl ih.1, .inl ih.2⟩
  | concatRight _ ih =>
    simp only [positions_concat, List.mem_append]
    exact ⟨.inr ih.1, .inr ih.2⟩
  | across hp hq =>
    simp only [positions_concat, List.mem_append]
    exact ⟨.inl (mem_positions_of_lastpos hp), .inr (mem_positions_of_firstpos hq)⟩
  | unionLeft _ ih =>
    simp only [positions_union, List.mem_append]
    exact ⟨.inl ih.1, .inl ih.2⟩
  | unionRight _ ih =>
    simp only [positions_union, List.mem_append]
    exact ⟨.inr ih.1, .inr ih.2⟩
  | star _ ih => exact ih
  | around hp hq => exact ⟨mem_positions_of_lastpos hp, mem_positions_of_firstpos hq⟩

/-- What can come right after a position is at a leaf that reads something. -/
theorem Precedes.exists_mark (h : Precedes t p q) : ∃ s, s ≠ .epsilon ∧ (s, q) ∈ t.marks := by
  induction h with
  | concatLeft _ ih => exact ih.imp fun _ => .imp_right (List.mem_append_left _)
  | concatRight _ ih => exact ih.imp fun _ => .imp_right (List.mem_append_right _)
  | across _ hq =>
    exact (exists_mark_of_attributes (.inl hq)).imp fun _ => .imp_right (List.mem_append_right _)
  | unionLeft _ ih => exact ih.imp fun _ => .imp_right (List.mem_append_left _)
  | unionRight _ ih => exact ih.imp fun _ => .imp_right (List.mem_append_right _)
  | star _ ih => exact ih
  | around _ hq => exact exists_mark_of_attributes (.inl hq)

/-- **A run through a part goes on in the whole tree**, with what can be read behind the last
positions of the part. -/
theorem Runs.extend {u v : List Nat} (h : Runs e p u)
    (hsub : ∀ p q, Precedes e p q → Precedes t p q) (hend : ∀ p ∈ e.lastpos, Runs t p v) :
    Runs t p (u ++ v) := by
  induction h with
  | stop hp => exact hend _ hp
  | step hpq _ ih => exact .step (hsub _ _ hpq) ih

end Words

/-! ## 4. Runs through operators -/

section Operators

variable {l r e t : PositionTree} {p : Nat} {w : List Nat}

theorem local_leaf (s : Leaf) (p : Nat) : Local (.leaf s p) := by
  intro q w
  rw [reads_leaf_iff, mem_firstpos_leaf_iff]
  constructor
  · rintro (⟨-, h⟩ | ⟨hs, h⟩)
    · contradiction
    · obtain ⟨rfl, rfl⟩ := List.cons.inj h
      exact ⟨⟨hs, rfl⟩, .stop (mem_lastpos_leaf_iff.mpr ⟨hs, rfl⟩)⟩
  · rintro ⟨⟨hs, rfl⟩, hruns⟩
    cases hruns with
    | stop _ => exact .inr ⟨hs, rfl⟩
    | step h _ => cases h

/-- **A part that no step leaves** has the runs that the whole tree has there. -/
theorem runs_iff_of_part (hstep : ∀ p ∈ e.positions, ∀ q, Precedes t p q ↔ Precedes e p q)
    (hend : ∀ p ∈ e.positions, p ∈ t.lastpos ↔ p ∈ e.lastpos) (hp : p ∈ e.positions) :
    Runs t p w ↔ Runs e p w := by
  constructor
  · intro h
    induction h with
    | stop h => exact .stop ((hend _ hp).mp h)
    | step h _ ih =>
      have hinner := (hstep _ hp _).mp h
      exact .step hinner (ih hinner.mem_positions.2)
  · intro h
    induction h with
    | stop h => exact .stop ((hend _ hp).mpr h)
    | step h _ ih => exact .step ((hstep _ hp _).mpr h) (ih h.mem_positions.2)

/-- A run from the right operand of a concatenation stays there. -/
theorem runs_concat_right_iff (hdisjoint : List.Disjoint l.positions r.positions)
    (hp : p ∈ r.positions) : Runs (.concat l r) p w ↔ Runs r p w := by
  refine runs_iff_of_part (fun p hp q => ⟨fun h => ?_, .concatRight⟩) (fun p hp => ?_) hp
  · cases h with
    | concatLeft h => exact absurd hp (hdisjoint h.mem_positions.1)
    | concatRight h => exact h
    | across h _ => exact absurd hp (hdisjoint (mem_positions_of_lastpos h))
  · rw [mem_lastpos_concat_iff, or_iff_left]
    exact fun h => hdisjoint (mem_positions_of_lastpos h.2) hp

/-- **A run from the left operand of a concatenation** leaves it once, for a word of the right
operand. -/
theorem runs_concat_iff (hdisjoint : List.Disjoint l.positions r.positions) (hr : Local r)
    (hp : p ∈ l.positions) :
    Runs (.concat l r) p w ↔ ∃ u v, w = u ++ v ∧ Runs l p u ∧ Reads r v := by
  constructor
  · intro h
    induction h with
    | stop h =>
      rcases mem_lastpos_concat_iff.mp h with h | ⟨hnullable, h⟩
      · exact absurd (mem_positions_of_lastpos h) (hdisjoint hp)
      · exact ⟨[], [], rfl, .stop h, reads_nil_iff.mpr hnullable⟩
    | @step p q w h rest ih =>
      cases h with
      | concatLeft h =>
        obtain ⟨u, v, rfl, hu, hv⟩ := ih h.mem_positions.2
        exact ⟨q :: u, v, rfl, .step h hu, hv⟩
      | concatRight h => exact absurd h.mem_positions.1 (hdisjoint hp)
      | across h hq =>
        have hrest := (runs_concat_right_iff hdisjoint (mem_positions_of_firstpos hq)).mp rest
        exact ⟨[], q :: w, rfl, .stop h, (hr q w).mpr ⟨hq, hrest⟩⟩
  · rintro ⟨u, v, rfl, hu, hv⟩
    refine hu.extend (fun _ _ h => .concatLeft h) fun p' hp' => ?_
    cases v with
    | nil => exact .stop (mem_lastpos_concat_iff.mpr (.inr ⟨reads_nil_iff.mp hv, hp'⟩))
    | cons q v =>
      obtain ⟨hq, hrest⟩ := (hr q v).mp hv
      exact .step (.across hp' hq)
        ((runs_concat_right_iff hdisjoint (mem_positions_of_firstpos hq)).mpr hrest)

theorem Local.concat (hdisjoint : List.Disjoint l.positions r.positions) (hl : Local l)
    (hr : Local r) : Local (.concat l r) := by
  intro p w
  rw [reads_concat_iff, mem_firstpos_concat_iff]
  constructor
  · rintro ⟨_ | ⟨q, u⟩, v, hw, hu, hv⟩
    · rw [List.nil_append] at hw
      subst hw
      obtain ⟨hp, hruns⟩ := (hr p w).mp hv
      exact ⟨.inr ⟨reads_nil_iff.mp hu, hp⟩,
        (runs_concat_right_iff hdisjoint (mem_positions_of_firstpos hp)).mpr hruns⟩
    · obtain ⟨rfl, rfl⟩ := List.cons.inj hw
      obtain ⟨hp, hruns⟩ := (hl p u).mp hu
      exact ⟨.inl hp, (runs_concat_iff hdisjoint hr (mem_positions_of_firstpos hp)).mpr
        ⟨u, v, rfl, hruns, hv⟩⟩
  · rintro ⟨hp | ⟨hnullable, hp⟩, hruns⟩
    · obtain ⟨u, v, rfl, hu, hv⟩ :=
        (runs_concat_iff hdisjoint hr (mem_positions_of_firstpos hp)).mp hruns
      exact ⟨p :: u, v, rfl, (hl p u).mpr ⟨hp, hu⟩, hv⟩
    · have hright := (runs_concat_right_iff hdisjoint (mem_positions_of_firstpos hp)).mp hruns
      exact ⟨[], p :: w, rfl, reads_nil_iff.mpr hnullable, (hr p w).mpr ⟨hp, hright⟩⟩

/-- A run from an operand of a union stays in it. -/
theorem runs_union_left_iff (hdisjoint : List.Disjoint l.positions r.positions)
    (hp : p ∈ l.positions) : Runs (.union l r) p w ↔ Runs l p w := by
  refine runs_iff_of_part (fun p hp q => ⟨fun h => ?_, .unionLeft⟩) (fun p hp => ?_) hp
  · cases h with
    | unionLeft h => exact h
    | unionRight h => exact absurd h.mem_positions.1 (hdisjoint hp)
  · rw [mem_lastpos_union_iff, or_iff_left]
    exact fun h => hdisjoint hp (mem_positions_of_lastpos h)

theorem runs_union_right_iff (hdisjoint : List.Disjoint l.positions r.positions)
    (hp : p ∈ r.positions) : Runs (.union l r) p w ↔ Runs r p w := by
  refine runs_iff_of_part (fun p hp q => ⟨fun h => ?_, .unionRight⟩) (fun p hp => ?_) hp
  · cases h with
    | unionLeft h => exact absurd hp (hdisjoint h.mem_positions.1)
    | unionRight h => exact h
  · rw [mem_lastpos_union_iff, or_iff_right]
    exact fun h => hdisjoint (mem_positions_of_lastpos h) hp

theorem Local.union (hdisjoint : List.Disjoint l.positions r.positions) (hl : Local l)
    (hr : Local r) : Local (.union l r) := by
  intro p w
  rw [reads_union_iff, mem_firstpos_union_iff, hl p w, hr p w, or_and_right]
  refine or_congr ?_ ?_
  · exact and_congr_right fun hp =>
      (runs_union_left_iff hdisjoint (mem_positions_of_firstpos hp)).symm
  · exact and_congr_right fun hp =>
      (runs_union_right_iff hdisjoint (mem_positions_of_firstpos hp)).symm

/-- Behind a last position of its operand, a star reads any of its words. -/
theorem Local.runs_star (he : Local e) {v : List Nat} (hv : Reads (.star e) v) :
    ∀ p ∈ e.lastpos, Runs (.star e) p v := by
  have hrounds := reads_star_iff_mem_kstar.mp hv
  clear hv
  induction hrounds using kstar_induction with
  | nil => exact fun p hp => .stop hp
  | cons u v hu _ ih =>
    intro p hp
    cases u with
    | nil => exact ih p hp
    | cons q u =>
      obtain ⟨hq, hruns⟩ := (he q u).mp hu
      exact .step (.around hp hq) (hruns.extend (fun _ _ h => .star h) ih)

/-- **A run through a star** is one through its operand, and then a word of the star. -/
theorem runs_star_iff (he : Local e) :
    Runs (.star e) p w ↔ ∃ u v, w = u ++ v ∧ Runs e p u ∧ Reads (.star e) v := by
  constructor
  · intro h
    induction h with
    | stop h => exact ⟨[], [], rfl, .stop h, .starNil⟩
    | @step p q w h _ ih =>
      obtain ⟨u, v, rfl, hu, hv⟩ := ih
      cases h with
      | star h => exact ⟨q :: u, v, rfl, .step h hu, hv⟩
      | around hp hq =>
        exact ⟨[], q :: (u ++ v), rfl, .stop hp, .starCons ((he q u).mpr ⟨hq, hu⟩) hv⟩
  · rintro ⟨u, v, rfl, hu, hv⟩
    exact hu.extend (fun _ _ h => .star h) (he.runs_star hv)

theorem Local.star (he : Local e) : Local (.star e) := by
  intro p w
  rw [reads_star_cons_iff, runs_star_iff he]
  constructor
  · rintro ⟨u, v, hw, hu, hv⟩
    obtain ⟨hp, hruns⟩ := (he p u).mp hu
    exact ⟨hp, u, v, hw, hruns, hv⟩
  · rintro ⟨hp, u, v, hw, hruns, hv⟩
    exact ⟨u, v, hw, (he p u).mpr ⟨hp, hruns⟩, hv⟩

end Operators

/-- **Neighbours decide which words a tree reads**, if no position is at two leaves. -/
theorem local_of_nodup : ∀ {t : PositionTree}, t.positions.Nodup → Local t
  | .leaf s p, _ => local_leaf s p
  | .concat l r, h => by
    rw [positions_concat] at h
    obtain ⟨hl, hr, hdisjoint⟩ := List.nodup_append'.mp h
    exact (local_of_nodup hl).concat hdisjoint (local_of_nodup hr)
  | .union l r, h => by
    rw [positions_union] at h
    obtain ⟨hl, hr, hdisjoint⟩ := List.nodup_append'.mp h
    exact (local_of_nodup hl).union hdisjoint (local_of_nodup hr)
  | .star e, h => (local_of_nodup (t := e) h).star

end PositionTree

end FormalLang
