import FormalLang.Ordered.Set
import Mathlib.Algebra.BigOperators.Group.List.Basic
import Mathlib.Algebra.GroupWithZero.Nat
import Mathlib.Data.List.Perm.Subperm
import Mathlib.Tactic.Common

/-!
# Sets that grow within a bound

Worklists end because the sets they fill can only take up so much.  A set is no larger than a list
that holds all its members (`OrderedSet.size_le_length`), it has grown exactly if it became larger
(`OrderedSet.eq_of_subset_of_size_le`), and the room left in a family of sets falls whenever one of
them grows (`room_lt`).
-/

namespace FormalLang

universe u

namespace OrderedSet

variable {α : Type u} [Ordered α]

theorem nodup (s : OrderedSet α) : s.toList.Nodup :=
  s.ascending.imp Ordered.ne_of_less

theorem length_insertAscending {x : α} : ∀ {l : List α}, x ∉ l →
    (insertAscending x l).length = l.length + 1
  | [], _ => rfl
  | y :: ys, h => by
    obtain ⟨hne, hx⟩ := not_or.mp (List.mem_cons.not.mp h)
    rw [insertAscending]
    split
    · rfl
    · rename_i hxy
      split
      · rw [List.length_cons, length_insertAscending hx, List.length_cons]
      · rename_i hyx
        exact absurd (Ordered.eq_of_not_less (by simpa using hxy) (by simpa using hyx)) hne

/-- A new member makes a set larger by one. -/
theorem size_insert {s : OrderedSet α} {x : α} (h : x ∉ s) : (s.insert x).size = s.size + 1 :=
  length_insertAscending h

/-- A set has no more members than a list that holds them all. -/
theorem size_le_length {s : OrderedSet α} {l : List α} (h : ∀ x ∈ s, x ∈ l) :
    s.size ≤ l.length :=
  (s.nodup.subperm h).length_le

theorem size_le_of_subset {s t : OrderedSet α} (h : ∀ x ∈ s, x ∈ t) : s.size ≤ t.size :=
  size_le_length h

/-- **A set that is not larger than a part of it is that part.** -/
theorem eq_of_subset_of_size_le {s t : OrderedSet α} (h : ∀ x ∈ s, x ∈ t)
    (hsize : t.size ≤ s.size) : s = t := by
  have hperm : s.toList.Perm t.toList := (s.nodup.subperm h).perm_of_length_le hsize
  exact ext fun x => hperm.mem_iff

theorem size_lt_of_subset {s t : OrderedSet α} (h : ∀ x ∈ s, x ∈ t) (hne : t.size ≠ s.size) :
    s.size < t.size :=
  Nat.lt_of_le_of_ne (size_le_of_subset h) (Ne.symm hne)

end OrderedSet

/-! ## The room that is left -/

/-- How much the sets of some names can still grow, if each can have so many members. -/
def room (bound : Nat) (sizes : String → Nat) (names : List String) : Nat :=
  (names.map fun name => bound - sizes name).sum

theorem room_le {bound : Nat} {sizes : String → Nat} (names : List String) :
    room bound sizes names ≤ names.length * bound := by
  induction names with
  | nil => simp [room]
  | cons name names ih =>
    simp only [room, List.map_cons, List.sum_cons, List.length_cons] at ih ⊢
    rw [Nat.succ_mul]
    omega

theorem room_mono {bound : Nat} {sizes sizes' : String → Nat} (h : ∀ name, sizes name ≤ sizes' name)
    (names : List String) : room bound sizes' names ≤ room bound sizes names := by
  induction names with
  | nil => exact Nat.le_refl _
  | cons name names ih =>
    simp only [room, List.map_cons, List.sum_cons] at ih ⊢
    have := h name
    omega

/-- **A set that grows takes up room.** -/
theorem room_lt {bound : Nat} {sizes sizes' : String → Nat} (h : ∀ name, sizes name ≤ sizes' name)
    {head : String} (hgrown : sizes head < sizes' head) (hbound : sizes' head ≤ bound) :
    ∀ {names : List String}, head ∈ names → room bound sizes' names < room bound sizes names
  | name :: names, hhead => by
    simp only [room, List.map_cons, List.sum_cons]
    rcases List.mem_cons.mp hhead with rfl | hhead
    · have hrest := @room_mono bound _ _ h names
      simp only [room] at hrest
      omega
    · have hrest := room_lt h hgrown hbound hhead
      simp only [room] at hrest
      have := h name
      omega

end FormalLang
