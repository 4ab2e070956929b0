import FormalLang.Ordered

/-!
# Finite sets kept in ascending order

A set is a strictly ascending list.  The invariant is part of the type, so a set has exactly one
representation: two sets with the same members are equal (`OrderedSet.ext`), and equality of sets
can be decided by comparing lists.

**The view is membership.**  Each operation comes with one lemma that says which members its result
has; nothing else about an operation needs to be known.
-/

namespace FormalLang

universe u v

/-- Puts `x` at its place in an ascending list, which stays as it is if it holds `x` already. -/
def insertAscending {α : Type u} [Ordered α] (x : α) : List α → List α
  | [] => [x]
  | y :: ys =>
    if Ordered.less x y then x :: y :: ys
    else if Ordered.less y x then y :: insertAscending x ys
    else y :: ys

/-- Whether every element of a list stands before all later ones. -/
abbrev Ascending {α : Type u} [Ordered α] (l : List α) : Prop :=
  l.Pairwise fun a b => Ordered.less a b = true

theorem mem_insertAscending {α : Type u} [Ordered α] {x z : α} : ∀ {l : List α},
    z ∈ insertAscending x l ↔ z = x ∨ z ∈ l
  | [] => by simp [insertAscending]
  | y :: ys => by
    simp only [insertAscending]
    split
    · simp
    · split
      · simp only [List.mem_cons, mem_insertAscending (l := ys)]
        grind
      · rename_i h h'
        have : x = y := Ordered.eq_of_not_less (by simpa using h) (by simpa using h')
        subst this
        simp

theorem ascending_insertAscending {α : Type u} [Ordered α] {x : α} : ∀ {l : List α},
    Ascending l → Ascending (insertAscending x l)
  | [], _ => by simp [insertAscending]
  | y :: ys, h => by
    obtain ⟨hy, hys⟩ := List.pairwise_cons.mp h
    simp only [insertAscending]
    split
    · rename_i hxy
      refine List.pairwise_cons.mpr ⟨?_, h⟩
      intro z hz
      rcases List.mem_cons.mp hz with rfl | hz
      · exact hxy
      · exact Ordered.trans hxy (hy z hz)
    · split
      · rename_i hyx
        refine List.pairwise_cons.mpr ⟨?_, ascending_insertAscending hys⟩
        intro z hz
        rcases mem_insertAscending.mp hz with rfl | hz
        · exact hyx
        · exact hy z hz
      · exact h

/-- An ascending list is determined by its members. -/
theorem eq_of_ascending {α : Type u} [Ordered α] : ∀ {l m : List α},
    Ascending l → Ascending m → (∀ x, x ∈ l ↔ x ∈ m) → l = m
  | [], [], _, _, _ => rfl
  | [], b :: _, _, _, h => absurd ((h b).mpr List.mem_cons_self) List.not_mem_nil
  | a :: _, [], _, _, h => absurd ((h a).mp List.mem_cons_self) List.not_mem_nil
  | a :: as, b :: bs, hl, hm, h => by
    obtain ⟨ha, has⟩ := List.pairwise_cons.mp hl
    obtain ⟨hb, hbs⟩ := List.pairwise_cons.mp hm
    have hab : a = b := by
      rcases List.mem_cons.mp ((h a).mp List.mem_cons_self) with hab | hmem
      · exact hab
      · rcases List.mem_cons.mp ((h b).mpr List.mem_cons_self) with hba | hmem'
        · exact hba.symm
        · have h1 := hb a hmem
          have h2 := ha b hmem'
          rw [Ordered.asymm h1] at h2
          contradiction
    subst hab
    congr 1
    refine eq_of_ascending has hbs fun x => ?_
    constructor
    · intro hx
      rcases List.mem_cons.mp ((h x).mp (List.mem_cons_of_mem _ hx)) with rfl | hx'
      · exact absurd rfl (Ordered.ne_of_less (ha x hx))
      · exact hx'
    · intro hx
      rcases List.mem_cons.mp ((h x).mpr (List.mem_cons_of_mem _ hx)) with rfl | hx'
      · exact absurd rfl (Ordered.ne_of_less (hb x hx))
      · exact hx'

/-- **A finite set**, listed in ascending order. -/
structure OrderedSet (α : Type u) [Ordered α] where
  /-- The members, each once, in ascending order. -/
  toList : List α
  ascending : Ascending toList
  deriving DecidableEq

namespace OrderedSet

variable {α : Type u} {β : Type v} [Ordered α] [Ordered β]

instance : Membership α (OrderedSet α) where
  mem s x := x ∈ s.toList

theorem mem_def {s : OrderedSet α} {x : α} : x ∈ s ↔ x ∈ s.toList := Iff.rfl

instance [DecidableEq α] (x : α) (s : OrderedSet α) : Decidable (x ∈ s) :=
  inferInstanceAs (Decidable (x ∈ s.toList))

/-- **Sets with the same members are equal.** -/
theorem ext {s t : OrderedSet α} (h : ∀ x, x ∈ s ↔ x ∈ t) : s = t := by
  obtain ⟨l, hl⟩ := s
  obtain ⟨m, hm⟩ := t
  have : l = m := eq_of_ascending hl hm h
  subst this
  rfl

/-! ## 1. Building sets -/

/-- The set without members. -/
def empty : OrderedSet α := ⟨[], .nil⟩

instance : EmptyCollection (OrderedSet α) := ⟨empty⟩

instance : Inhabited (OrderedSet α) := ⟨empty⟩

@[simp] theorem not_mem_empty {x : α} : ¬ x ∈ (∅ : OrderedSet α) := List.not_mem_nil

/-- The set with one more member. -/
def insert (s : OrderedSet α) (x : α) : OrderedSet α :=
  ⟨insertAscending x s.toList, ascending_insertAscending s.ascending⟩

@[simp] theorem mem_insert {s : OrderedSet α} {x z : α} : z ∈ s.insert x ↔ z = x ∨ z ∈ s :=
  mem_insertAscending

/-- The set of the elements of a list. -/
def ofList (l : List α) : OrderedSet α := l.foldl insert ∅

theorem mem_foldl_insert {x : α} : ∀ {l : List α} {s : OrderedSet α},
    x ∈ l.foldl insert s ↔ x ∈ s ∨ x ∈ l
  | [], s => by simp
  | y :: ys, s => by
    rw [List.foldl_cons, mem_foldl_insert, mem_insert, List.mem_cons]
    grind

@[simp] theorem mem_ofList {l : List α} {x : α} : x ∈ ofList l ↔ x ∈ l := by
  simp [ofList, mem_foldl_insert]

/-- The set with one member. -/
def singleton (x : α) : OrderedSet α := ⟨[x], List.pairwise_singleton _ x⟩

@[simp] theorem mem_singleton {x z : α} : z ∈ singleton x ↔ z = x := List.mem_singleton

/-! ## 2. Combining sets -/

/-- The members of either set. -/
def union (s t : OrderedSet α) : OrderedSet α := t.toList.foldl insert s

instance : Union (OrderedSet α) := ⟨union⟩

@[simp] theorem mem_union {s t : OrderedSet α} {x : α} : x ∈ s ∪ t ↔ x ∈ s ∨ x ∈ t :=
  mem_foldl_insert

/-- The members that pass a test. -/
def filter (p : α → Bool) (s : OrderedSet α) : OrderedSet α :=
  ⟨s.toList.filter p, s.ascending.filter p⟩

@[simp] theorem mem_filter {p : α → Bool} {s : OrderedSet α} {x : α} :
    x ∈ s.filter p ↔ x ∈ s ∧ p x = true := List.mem_filter

/-- The union of the sets `f x`, for the elements `x` of a list. -/
def unionOf {γ : Type v} (f : γ → OrderedSet α) (l : List γ) : OrderedSet α :=
  l.foldl (fun acc x => acc ∪ f x) ∅

theorem mem_foldl_union {γ : Type v} {f : γ → OrderedSet α} {x : α} :
    ∀ {l : List γ} {s : OrderedSet α},
      x ∈ l.foldl (fun acc y => acc ∪ f y) s ↔ x ∈ s ∨ ∃ y ∈ l, x ∈ f y
  | [], s => by simp
  | y :: ys, s => by
    rw [List.foldl_cons, mem_foldl_union, mem_union]
    simp only [List.mem_cons, exists_eq_or_imp]
    grind

@[simp] theorem mem_unionOf {γ : Type v} {f : γ → OrderedSet α} {l : List γ} {x : α} :
    x ∈ unionOf f l ↔ ∃ y ∈ l, x ∈ f y := by
  simp [unionOf, mem_foldl_union]

/-! ## 3. Size -/

/-- The number of members. -/
def size (s : OrderedSet α) : Nat := s.toList.length

/-- Whether there are no members. -/
def isEmpty (s : OrderedSet α) : Bool := s.toList.isEmpty

end OrderedSet

end FormalLang
