import FormalLang.Proofs.Automaton.Thompson
import Mathlib.Logic.Relation

/-!
# Paths without input through a fragment

An operator puts edges without input around the fragments of its operands, and these join what is
reached without input inside the operands (`Fragment.Reaches`).  For each operator one equivalence
says which states of the whole are reached from which:

* through a concatenation, inside one operand, or out of the left one and into the right one;
* through a union, inside one operand, from the entry into either, or from either to the exit;
* through a star, inside the operand, or out of it and, once round, into it again.

**Rounds are not counted.**  A path through a star may go round its operand any number of times, but
what it reaches it reaches after leaving the operand once (`Tight.reaches_star_iff`).
-/

namespace FormalLang.Fragment

/-- Whether edges without input lead from one state to another. -/
def Reaches (f : Fragment) : Nat → Nat → Prop :=
  Relation.ReflTransGen fun p q => (⟨p, .epsilon, q⟩ : Edge) ∈ f.edges

variable {free : Nat} {f g l r : Fragment} {p q : Nat}

/-! ## 1. Paths and their states -/

namespace Reaches

theorem refl (p : Nat) : f.Reaches p p := Relation.ReflTransGen.refl

theorem of_edge (edge : ⟨p, .epsilon, q⟩ ∈ f.edges) : f.Reaches p q :=
  Relation.ReflTransGen.single edge

theorem trans {s : Nat} (h : f.Reaches p q) (h' : f.Reaches q s) : f.Reaches p s :=
  Relation.ReflTransGen.trans h h'

theorem mono (h : f.Reaches p q) (hsub : ∀ e ∈ f.edges, e ∈ g.edges) : g.Reaches p q :=
  Relation.ReflTransGen.mono (fun _ _ edge => hsub _ edge) p q h

/-- Nothing but itself is reached from a state that no edge leaves. -/
theorem sink_iff (hsink : ∀ e ∈ f.edges, e.source ≠ p) : f.Reaches p q ↔ q = p := by
  constructor
  · intro h
    rcases Relation.ReflTransGen.cases_head h with heq | ⟨_, edge, -⟩
    · exact heq.symm
    · exact absurd rfl (hsink _ edge)
  · rintro rfl
    exact .refl q

/-- **What is reached are the ends of paths that read nothing.** -/
theorem iff_connects : f.Reaches p q ↔ Connects f.edges p [] q := by
  constructor
  · intro h
    induction h using Relation.ReflTransGen.head_induction_on with
    | refl => exact .refl q
    | head edge _ ih => exact .skip edge ih
  · intro h
    generalize hw : ([] : List Char) = w at h
    induction h with
    | refl p => exact .refl p
    | @cons p q s label w edge _ ih =>
      cases label with
      | epsilon => exact (of_edge edge).trans (ih hw)
      | char c => contradiction

end Reaches

/-- What is reached from a state of a fragment is a state of it. -/
theorem Tight.owns_of_reaches (hf : Tight free f) (h : f.Reaches p q) (hp : f.Owns free p) :
    f.Owns free q := by
  induction h with
  | refl => exact hp
  | tail _ edge _ => exact (hf.edges _ edge).2.1

/-- **A path from a part** stays in it, or leaves it for one of the states that edges lead to from
its exit. -/
theorem HasPart.reaches_iff {part : Fragment} {targets : List Nat}
    (h : f.HasPart free part targets) (hp : part.Owns free p) : f.Reaches p q ↔
      part.Reaches p q ∨ part.Reaches p part.accept ∧ ∃ x ∈ targets, f.Reaches x q := by
  constructor
  · intro hreaches
    induction hreaches using Relation.ReflTransGen.head_induction_on with
    | refl => exact .inl (.refl q)
    | head edge rest ih =>
      rcases h.edge_cases _ edge hp with hinner | ⟨x, hx, heq⟩
      · exact (ih (h.tight.edges _ hinner).2.1).imp (Reaches.of_edge hinner).trans
          (And.imp_left (Reaches.of_edge hinner).trans)
      · obtain ⟨rfl, -, rfl⟩ := Edge.mk.inj heq
        exact .inr ⟨.refl _, _, hx, rest⟩
  · rintro (hinside | ⟨hinside, x, hx, hbehind⟩)
    · exact hinside.mono h.inside
    · exact ((hinside.mono h.inside).trans (.of_edge (h.ways x hx))).trans hbehind

/-- Where a part is left for a state without edges, that state is behind the exit. -/
theorem HasPart.reaches_exit_iff {part : Fragment} (h : f.HasPart free part [q])
    (hp : part.Owns free p) (hq : ¬part.Owns free q) (hsink : ∀ e ∈ f.edges, e.source ≠ q) :
    f.Reaches p q ↔ part.Reaches p part.accept := by
  rw [Reaches.iff_connects, Reaches.iff_connects, h.connects_exit_iff hp hq hsink]

/-! ## 2. Leaves -/

/-- A leaf for the empty word joins its states, and no other leaf does. -/
theorem reaches_ofLeaf_iff {s : Leaf} :
    (ofLeaf s free).Reaches p q ↔ p = q ∨ s = .epsilon ∧ p = free ∧ q = free + 1 := by
  have hedge : ∀ {p q : Nat}, ⟨p, .epsilon, q⟩ ∈ (ofLeaf s free).edges ↔
      s = .epsilon ∧ p = free ∧ q = free + 1 := by
    intro p q
    simp only [ofLeaf, List.mem_singleton, Edge.mk.injEq]
    cases s <;> simp [Leaf.label]
  have hsink : ∀ e ∈ (ofLeaf s free).edges, e.source ≠ free + 1 :=
    fun e he => ((tight_ofLeaf s free).edges e he).2.2
  constructor
  · intro h
    rcases Relation.ReflTransGen.cases_head h with heq | ⟨p', edge, rest⟩
    · exact .inl heq
    · obtain ⟨hs, hp, rfl⟩ := hedge.mp edge
      exact .inr ⟨hs, hp, (Reaches.sink_iff hsink).mp rest⟩
  · rintro (rfl | h)
    · exact .refl p
    · exact .of_edge (hedge.mpr h)

/-! ## 3. Concatenations -/

/-- A path from the right operand of a concatenation stays in it. -/
theorem Tight.reaches_concat_right_iff (hl : Tight free l) (hr : Tight l.next r)
    (hp : r.Owns l.next p) : (l.concat r).Reaches p q ↔ r.Reaches p q := by
  rw [(hl.concat_right hr).reaches_iff hp]
  simp

/-- **A path from the left operand of a concatenation** stays in it, or goes over to the right
one. -/
theorem Tight.reaches_concat_left_iff (hl : Tight free l) (hr : Tight l.next r)
    (hp : l.Owns free p) : (l.concat r).Reaches p q ↔
      l.Reaches p q ∨ l.Reaches p l.accept ∧ r.Reaches r.start q := by
  rw [(hl.concat_left hr).reaches_iff hp]
  simp [hl.reaches_concat_right_iff hr hr.start]

/-- Out of the left operand, the exit of a concatenation is behind the right one. -/
theorem Tight.reaches_concat_exit_iff (hl : Tight free l) (hr : Tight l.next r)
    (hp : l.Owns free p) : (l.concat r).Reaches p r.accept ↔
      l.Reaches p l.accept ∧ r.Reaches r.start r.accept := by
  refine (hl.reaches_concat_left_iff hr hp).trans (or_iff_right fun h => ?_)
  exact not_owns_of_le hr.accept.1 (hl.owns_of_reaches h hp)

/-! ## 4. Unions -/

/-- From the exit of a union nothing else is reached. -/
theorem Tight.reaches_union_exit_iff (hl : Tight free l) (hr : Tight l.next r) :
    (l.union r).Reaches (r.next + 1) q ↔ q = r.next + 1 :=
  Reaches.sink_iff fun e he => ((hl.union hr).edges e he).2.2

/-- **A path from the left operand of a union** stays in it or leaves it for the exit. -/
theorem Tight.reaches_union_left_iff (hl : Tight free l) (hr : Tight l.next r)
    (hp : l.Owns free p) : (l.union r).Reaches p q ↔
      l.Reaches p q ∨ l.Reaches p l.accept ∧ q = r.next + 1 := by
  rw [(hl.union_left hr).reaches_iff hp]
  simp [hl.reaches_union_exit_iff hr]

/-- **A path from the right operand of a union** stays in it or leaves it for the exit. -/
theorem Tight.reaches_union_right_iff (hl : Tight free l) (hr : Tight l.next r)
    (hp : r.Owns l.next p) : (l.union r).Reaches p q ↔
      r.Reaches p q ∨ r.Reaches p r.accept ∧ q = r.next + 1 := by
  rw [(hl.union_right hr).reaches_iff hp]
  simp [hl.reaches_union_exit_iff hr]

/-- Out of an operand, the exit of a union is behind that one. -/
theorem Tight.reaches_union_exit_left_iff (hl : Tight free l) (hr : Tight l.next r)
    (hp : l.Owns free p) : (l.union r).Reaches p (r.next + 1) ↔ l.Reaches p l.accept :=
  (hl.union_left hr).reaches_exit_iff hp (not_owns_of_le (Nat.le_succ_of_le hr.next_le))
    fun e he => ((hl.union hr).edges e he).2.2

theorem Tight.reaches_union_exit_right_iff (hl : Tight free l) (hr : Tight l.next r)
    (hp : r.Owns l.next p) : (l.union r).Reaches p (r.next + 1) ↔ r.Reaches p r.accept :=
  (hl.union_right hr).reaches_exit_iff hp (not_owns_of_le (Nat.le_succ _))
    fun e he => ((hl.union hr).edges e he).2.2

/-- **A path from the entry of a union** goes into one of its operands. -/
theorem Tight.reaches_union_entry_iff (hl : Tight free l) (hr : Tight l.next r) :
    (l.union r).Reaches r.next q ↔
      r.next = q ∨ (l.union r).Reaches l.start q ∨ (l.union r).Reaches r.start q := by
  constructor
  · intro h
    rcases Relation.ReflTransGen.cases_head h with heq | ⟨s, edge, rest⟩
    · exact .inl heq
    · obtain ⟨-, rfl | rfl⟩ := hl.edge_of_union_start hr edge
      · exact .inr (.inl rest)
      · exact .inr (.inr rest)
  · rintro (rfl | h | h)
    · exact .refl _
    · exact .trans (.of_edge (mem_edges_union.mpr (by simp))) h
    · exact .trans (.of_edge (mem_edges_union.mpr (by simp))) h

/-! ## 5. Stars -/

/-- From the exit of a star nothing else is reached. -/
theorem Tight.reaches_star_end_iff (hf : Tight free f) :
    f.star.Reaches (f.next + 1) q ↔ q = f.next + 1 :=
  Reaches.sink_iff fun e he => (hf.star.edges e he).2.2

/-- **A path from the operand of a star** stays in it, or leaves it for its start or for the exit of
the star. -/
theorem Tight.reaches_star_iff (hf : Tight free f) (hp : f.Owns free p) : f.star.Reaches p q ↔
    f.Reaches p q ∨ f.Reaches p f.accept ∧ (f.Reaches f.start q ∨ q = f.next + 1) := by
  constructor
  · intro h
    induction h using Relation.ReflTransGen.head_induction_on with
    | refl => exact .inl (.refl q)
    | head edge rest ih =>
      rcases hf.star_operand.edge_cases _ edge hp with hinner | ⟨x, hx, heq⟩
      · exact (ih (hf.edges _ hinner).2.1).imp (Reaches.of_edge hinner).trans
          (And.imp_left (Reaches.of_edge hinner).trans)
      · obtain ⟨rfl, -, rfl⟩ := Edge.mk.inj heq
        rcases List.mem_pair.mp hx with rfl | rfl
        -- one more round, which counts as the one that is allowed
        · exact .inr ⟨.refl _, (ih hf.start).elim .inl And.right⟩
        · exact .inr ⟨.refl _, .inr (hf.reaches_star_end_iff.mp rest)⟩
  · intro h
    rw [hf.star_operand.reaches_iff hp]
    refine h.imp_right (And.imp_right ?_)
    rintro (h | rfl)
    · exact ⟨f.start, List.mem_cons_self, h.mono hf.star_operand.inside⟩
    · exact ⟨f.next + 1, List.mem_cons_of_mem _ List.mem_cons_self, .refl _⟩

/-- Out of the operand, the exit of a star is behind it. -/
theorem Tight.reaches_star_exit_iff (hf : Tight free f) (hp : f.Owns free p) :
    f.star.Reaches p (f.next + 1) ↔ f.Reaches p f.accept := by
  have hnot : ¬f.Reaches p (f.next + 1) := fun h =>
    not_owns_of_le (Nat.le_succ _) (hf.owns_of_reaches h hp)
  rw [hf.reaches_star_iff hp, or_iff_right hnot]
  exact and_iff_left (.inr rfl)

/-- **A path from the entry of a star** goes into the operand or past it. -/
theorem Tight.reaches_star_entry_iff (hf : Tight free f) : f.star.Reaches f.next q ↔
    f.next = q ∨ q = f.next + 1 ∨ f.star.Reaches f.start q := by
  constructor
  · intro h
    rcases Relation.ReflTransGen.cases_head h with heq | ⟨s, edge, rest⟩
    · exact .inl heq
    · obtain ⟨-, rfl | rfl⟩ := hf.edge_of_star_start edge
      · exact .inr (.inr rest)
      · exact .inr (.inl (hf.reaches_star_end_iff.mp rest))
  · rintro (rfl | rfl | h)
    · exact .refl _
    · exact .of_edge (mem_edges_star.mpr (by simp))
    · exact .trans (.of_edge (mem_edges_star.mpr (by simp))) h

end FormalLang.Fragment
