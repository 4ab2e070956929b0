import FormalLang.Proofs.Position.Words

/-!
# The tables hold the neighbours and the leaves

The table of following positions, which is put together while the tree is walked, lists for each
position exactly those that can come right after it (`mem_followTable_iff`), and the table of
symbols has the leaf at each position (`find?_symbolTable_iff`).

The tables of two operands are merged, and where both had an entry the second one would win.  No
position is at two leaves, so that no entry is lost (`mem_merge_followTable_iff`).
-/

namespace FormalLang

/-- A set in a map grows, and the others stay. -/
theorem OrderedMap.mem_alter_union_iff {κ α : Type} [Ordered κ] [DecidableEq κ] [Ordered α]
    {m : OrderedMap κ (OrderedSet α)} {k k' : κ} {s : OrderedSet α} {x : α} :
    x ∈ ((m.alter k fun old => old.getD ∅ ∪ s).find? k').getD ∅ ↔
      x ∈ (m.find? k').getD ∅ ∨ k' = k ∧ x ∈ s := by
  rw [find?_alter]
  by_cases hk : k' = k
  · subst hk
    simp
  · simp [hk]

/-- A map that is merged has the entries of both. -/
theorem OrderedMap.isSome_merge_iff {κ α : Type} [Ordered κ] [DecidableEq κ]
    {m m' : OrderedMap κ α} {k : κ} : ((m.merge m').find? k).isSome = true ↔
      (m.find? k).isSome = true ∨ (m'.find? k).isSome = true := by
  rw [find?_merge, Option.isSome_or, Bool.or_eq_true, or_comm]

namespace PositionTree

/-! ## 1. Following positions -/

section Follow

variable {l r e : PositionTree} {table : FollowTable} {p q : Nat}

theorem mem_foldl_alter_iff {after : OrderedSet Nat} : ∀ {before : List Nat} {table : FollowTable},
    q ∈ ((before.foldl (fun t p => t.alter p fun follow => follow.getD ∅ ∪ after) table).find?
        p).getD ∅ ↔
      q ∈ (table.find? p).getD ∅ ∨ p ∈ before ∧ q ∈ after
  | [], table => by simp
  | first :: before, table => by
    rw [List.foldl_cons, mem_foldl_alter_iff, OrderedMap.mem_alter_union_iff, List.mem_cons,
      or_and_right, or_assoc]

theorem mem_link_iff {before after : OrderedSet Nat} :
    q ∈ ((link table before after).find? p).getD ∅ ↔
      q ∈ (table.find? p).getD ∅ ∨ p ∈ before ∧ q ∈ after :=
  mem_foldl_alter_iff

theorem find?_foldl_alter {after : OrderedSet Nat} : ∀ {before : List Nat} {table : FollowTable},
    p ∉ before → (before.foldl (fun t p => t.alter p fun follow => follow.getD ∅ ∪ after)
      table).find? p = table.find? p
  | [], _, _ => rfl
  | first :: before, table, h => by
    rw [List.mem_cons, not_or] at h
    obtain ⟨hfirst, hbefore⟩ := h
    rw [List.foldl_cons, find?_foldl_alter hbefore, OrderedMap.find?_alter, if_neg hfirst]

/-- Only positions of the tree have entries. -/
theorem find?_followTable_eq_none : ∀ {t : PositionTree}, p ∉ t.positions →
    t.followTable.find? p = none
  | .leaf s p', h => by
    have hne : p ≠ p' := fun heq => h (List.mem_singleton.mpr heq)
    unfold followTable
    split <;> simp [hne]
  | .concat l r, h => by
    rw [positions_concat, List.mem_append, not_or] at h
    have hlast : p ∉ l.lastpos.toList := fun hp => h.1 (mem_positions_of_lastpos hp)
    rw [followTable, link, find?_foldl_alter hlast, OrderedMap.find?_merge,
      find?_followTable_eq_none h.1, find?_followTable_eq_none h.2]
    rfl
  | .union l r, h => by
    rw [positions_union, List.mem_append, not_or] at h
    rw [followTable, OrderedMap.find?_merge, find?_followTable_eq_none h.1,
      find?_followTable_eq_none h.2]
    rfl
  | .star e, h => by
    have hlast : p ∉ e.lastpos.toList := fun hp => h (mem_positions_of_lastpos hp)
    rw [followTable, link, find?_foldl_alter hlast, find?_followTable_eq_none (t := e) h]

/-- **No entry is lost in a merge.** -/
theorem mem_merge_followTable_iff (hdisjoint : List.Disjoint l.positions r.positions) :
    q ∈ ((l.followTable.merge r.followTable).find? p).getD ∅ ↔
      q ∈ (l.followTable.find? p).getD ∅ ∨ q ∈ (r.followTable.find? p).getD ∅ := by
  rw [OrderedMap.find?_merge]
  by_cases hp : p ∈ r.positions
  · have hl : p ∉ l.positions := fun h => hdisjoint h hp
    simp [find?_followTable_eq_none hl]
  · simp [find?_followTable_eq_none hp]

theorem not_precedes_leaf {s : Leaf} {p' : Nat} : ¬Precedes (.leaf s p') p q := nofun

theorem precedes_concat_iff : Precedes (.concat l r) p q ↔
    (Precedes l p q ∨ Precedes r p q) ∨ p ∈ l.lastpos ∧ q ∈ r.firstpos := by
  constructor
  · intro h
    cases h with
    | concatLeft h => exact .inl (.inl h)
    | concatRight h => exact .inl (.inr h)
    | across hp hq => exact .inr ⟨hp, hq⟩
  · rintro ((h | h) | ⟨hp, hq⟩)
    · exact .concatLeft h
    · exact .concatRight h
    · exact .across hp hq

theorem precedes_union_iff : Precedes (.union l r) p q ↔ Precedes l p q ∨ Precedes r p q := by
  constructor
  · intro h
    cases h with
    | unionLeft h => exact .inl h
    | unionRight h => exact .inr h
  · rintro (h | h)
    · exact .unionLeft h
    · exact .unionRight h

theorem precedes_star_iff :
    Precedes (.star e) p q ↔ Precedes e p q ∨ p ∈ e.lastpos ∧ q ∈ e.firstpos := by
  constructor
  · intro h
    cases h with
    | star h => exact .inl h
    | around hp hq => exact .inr ⟨hp, hq⟩
  · rintro (h | ⟨hp, hq⟩)
    · exact .star h
    · exact .around hp hq

/-- **The table lists the neighbours.** -/
theorem mem_followTable_iff : ∀ {t : PositionTree}, t.positions.Nodup → ∀ {p q : Nat},
    q ∈ (t.followTable.find? p).getD ∅ ↔ Precedes t p q
  | .leaf s p', _, p, q => by
    rw [iff_false_right not_precedes_leaf]
    unfold followTable
    split
    · simp
    · rw [OrderedMap.find?_insert]
      split <;> simp
  | .concat l r, h, p, q => by
    rw [positions_concat] at h
    obtain ⟨hl, hr, hdisjoint⟩ := List.nodup_append'.mp h
    rw [followTable, mem_link_iff, mem_merge_followTable_iff hdisjoint, mem_followTable_iff hl,
      mem_followTable_iff hr, precedes_concat_iff]
  | .union l r, h, p, q => by
    rw [positions_union] at h
    obtain ⟨hl, hr, hdisjoint⟩ := List.nodup_append'.mp h
    rw [followTable, mem_merge_followTable_iff hdisjoint, mem_followTable_iff hl,
      mem_followTable_iff hr, precedes_union_iff]
  | .star e, h, p, q => by
    rw [followTable, mem_link_iff, mem_followTable_iff (t := e) h, precedes_star_iff]

end Follow

/-! ## 2. Leaves -/

theorem find?_symbolTable_eq_none {p : Nat} : ∀ {t : PositionTree}, p ∉ t.positions →
    t.symbolTable.find? p = none
  | .leaf s p', h => by
    have hne : p ≠ p' := fun heq => h (List.mem_singleton.mpr heq)
    simp [symbolTable, hne]
  | .concat l r, h => by
    rw [positions_concat, List.mem_append, not_or] at h
    simp [symbolTable, find?_symbolTable_eq_none h.1, find?_symbolTable_eq_none h.2]
  | .union l r, h => by
    rw [positions_union, List.mem_append, not_or] at h
    simp [symbolTable, find?_symbolTable_eq_none h.1, find?_symbolTable_eq_none h.2]
  | .star e, h => find?_symbolTable_eq_none (t := e) h

theorem find?_merge_symbolTable_iff {l r : PositionTree} {s : Leaf} {p : Nat}
    (hdisjoint : List.Disjoint l.positions r.positions) :
    (l.symbolTable.merge r.symbolTable).find? p = some s ↔
      l.symbolTable.find? p = some s ∨ r.symbolTable.find? p = some s := by
  rw [OrderedMap.find?_merge]
  by_cases hp : p ∈ r.positions
  · have hl : p ∉ l.positions := fun h => hdisjoint h hp
    simp [find?_symbolTable_eq_none hl]
  · simp [find?_symbolTable_eq_none hp]

/-- **The table has the leaf at each position.** -/
theorem find?_symbolTable_iff : ∀ {t : PositionTree}, t.positions.Nodup → ∀ {s : Leaf} {p : Nat},
    t.symbolTable.find? p = some s ↔ (s, p) ∈ t.marks
  | .leaf s' p', _, s, p => by
    rw [symbolTable, OrderedMap.find?_insert, marks, List.mem_singleton, Prod.mk.injEq]
    split <;> simp_all [eq_comm]
  | .concat l r, h, s, p => by
    rw [positions_concat] at h
    obtain ⟨hl, hr, hdisjoint⟩ := List.nodup_append'.mp h
    rw [symbolTable, find?_merge_symbolTable_iff hdisjoint, find?_symbolTable_iff hl,
      find?_symbolTable_iff hr, marks, List.mem_append]
  | .union l r, h, s, p => by
    rw [positions_union] at h
    obtain ⟨hl, hr, hdisjoint⟩ := List.nodup_append'.mp h
    rw [symbolTable, find?_merge_symbolTable_iff hdisjoint, find?_symbolTable_iff hl,
      find?_symbolTable_iff hr, marks, List.mem_append]
  | .star e, h, s, p => find?_symbolTable_iff (t := e) h

end PositionTree

end FormalLang
