/-!
# Strict total orders that run

Everything the library prints in order (state numbers, characters, names, cells of a table) is
kept in one order per type.  An order is a `Bool`-valued `less` together with its three laws, so
that a comparison can be executed and reasoned about with the same definition.

**What is ordered how.**  Numbers by size, characters by code point, lists and strings
lexicographically, pairs by their first and then their second component.  Every other order of the
library is read off one of these through a key (`Ordered.ofKey`).
-/

namespace FormalLang

universe u v

/-- **A strict total order given by a decision procedure.**  `less` never relates an element to
itself, is transitive, and decides between any two different elements. -/
class Ordered (α : Type u) where
  /-- Whether the first element stands before the second. -/
  less : α → α → Bool
  irrefl : ∀ a, less a a = false
  trans : ∀ {a b c}, less a b = true → less b c = true → less a c = true
  connected : ∀ a b, less a b = true ∨ a = b ∨ less b a = true

namespace Ordered

variable {α : Type u} {β : Type v}

/-! ## 1. Consequences of the laws -/

theorem asymm [Ordered α] {a b : α} (h : less a b = true) : less b a = false := by
  cases hba : less b a with
  | false => rfl
  | true =>
    have := irrefl a
    rw [trans h hba] at this
    contradiction

theorem ne_of_less [Ordered α] {a b : α} (h : less a b = true) : a ≠ b := by
  rintro rfl
  rw [irrefl a] at h
  contradiction

/-- Two elements of which neither stands before the other are equal. -/
theorem eq_of_not_less [Ordered α] {a b : α} (h : less a b = false) (h' : less b a = false) :
    a = b := by
  rcases connected a b with hab | rfl | hba
  · rw [hab] at h; contradiction
  · rfl
  · rw [hba] at h'; contradiction

/-! ## 2. Orders read off a key -/

/-- The order of the keys, for a key that tells all elements apart. -/
@[reducible] def ofKey [Ordered β] (key : α → β) (injective : ∀ a b, key a = key b → a = b) :
    Ordered α where
  less a b := less (key a) (key b)
  irrefl a := irrefl (key a)
  trans := trans
  connected a b := by
    rcases connected (key a) (key b) with h | h | h
    · exact .inl h
    · exact .inr (.inl (injective a b h))
    · exact .inr (.inr h)

/-! ## 3. Numbers and characters -/

instance : Ordered Nat where
  less a b := decide (a < b)
  irrefl a := by simp
  trans := by
    intro a b c h h'
    simp only [decide_eq_true_eq] at *
    omega
  connected a b := by
    simp only [decide_eq_true_eq]
    omega

/-- Characters are ordered by code point. -/
instance : Ordered Char :=
  ofKey Char.toNat fun _ _ h => Char.ext (UInt32.toNat_inj.mp h)

/-! ## 4. Lists and strings -/

/-- The lexicographic order: the first difference decides, and a list stands before its proper
extensions. -/
def listLess [Ordered α] : List α → List α → Bool
  | _, [] => false
  | [], _ :: _ => true
  | a :: as, b :: bs => if less a b then true else if less b a then false else listLess as bs

theorem listLess_irrefl [Ordered α] : ∀ l : List α, listLess l l = false
  | [] => rfl
  | a :: as => by simp [listLess, irrefl a, listLess_irrefl as]

theorem listLess_cons [Ordered α] {a b : α} {as bs : List α} :
    listLess (a :: as) (b :: bs) = true ↔ less a b = true ∨ (a = b ∧ listLess as bs = true) := by
  simp only [listLess]
  split
  · simp_all
  · rename_i hab
    split
    · rename_i hba
      simp only [Bool.false_eq_true, false_iff, not_or, hab, not_false_eq_true, true_and]
      exact fun h => ne_of_less hba h.1.symm
    · rename_i hba
      have : a = b := eq_of_not_less (by simpa using hab) (by simpa using hba)
      simp [this, irrefl b]

theorem listLess_trans [Ordered α] : ∀ {l m n : List α},
    listLess l m = true → listLess m n = true → listLess l n = true
  | l, [], n, h, _ => by cases l <;> simp [listLess] at h
  | _, _ :: _, [], _, h' => by simp [listLess] at h'
  | [], _ :: _, _ :: _, _, _ => rfl
  | a :: as, b :: bs, c :: cs, h, h' => by
    rw [listLess_cons] at *
    rcases h with h | ⟨rfl, h⟩
    · rcases h' with h' | ⟨rfl, _⟩
      · exact .inl (trans h h')
      · exact .inl h
    · rcases h' with h' | ⟨rfl, h'⟩
      · exact .inl h'
      · exact .inr ⟨rfl, listLess_trans h h'⟩

theorem listLess_connected [Ordered α] : ∀ l m : List α,
    listLess l m = true ∨ l = m ∨ listLess m l = true
  | [], [] => .inr (.inl rfl)
  | [], _ :: _ => .inl rfl
  | _ :: _, [] => .inr (.inr rfl)
  | a :: as, b :: bs => by
    rw [listLess_cons, listLess_cons]
    rcases connected a b with h | rfl | h
    · exact .inl (.inl h)
    · rcases listLess_connected as bs with h | rfl | h
      · exact .inl (.inr ⟨rfl, h⟩)
      · exact .inr (.inl rfl)
      · exact .inr (.inr (.inr ⟨rfl, h⟩))
    · exact .inr (.inr (.inl h))

instance [Ordered α] : Ordered (List α) where
  less := listLess
  irrefl := listLess_irrefl
  trans := listLess_trans
  connected := listLess_connected

/-- Strings are ordered lexicographically by code point. -/
instance : Ordered String :=
  ofKey String.toList fun _ _ h => String.toList_injective h

/-! ## 5. Pairs -/

/-- Pairs are ordered by their first component, and by the second where the first ones agree. -/
instance [Ordered α] [Ordered β] : Ordered (α × β) where
  less p q := if less p.1 q.1 then true else if less q.1 p.1 then false else less p.2 q.2
  irrefl p := by simp [irrefl]
  trans := by
    rintro ⟨a, x⟩ ⟨b, y⟩ ⟨c, z⟩ h h'
    grind [irrefl, trans, eq_of_not_less, asymm]
  connected := by
    rintro ⟨a, x⟩ ⟨b, y⟩
    rcases connected a b with h | rfl | h
    · simp [h]
    · rcases connected x y with h | rfl | h
      · simp [irrefl, h]
      · simp
      · simp [irrefl, h]
    · simp [h, asymm h]

end Ordered

end FormalLang
