import FormalLang.Ordered.Set

/-!
# Finite maps kept in ascending order of their keys

A map is a list of bindings whose keys ascend strictly, so that each key has at most one value and
the listing of a map is determined by its look-ups (`OrderedMap.ext`).

**The view is the look-up** `find?`.  Each operation comes with one lemma about it.
-/

namespace FormalLang

universe u v w

/-- Whether the keys of a list of bindings ascend strictly. -/
abbrev AscendingKeys {κ : Type u} {β : Type v} [Ordered κ] (l : List (κ × β)) : Prop :=
  l.Pairwise fun a b => Ordered.less a.1 b.1 = true

/-- Binds `k` at its place in a list with ascending keys, to `f` of the value it has there. -/
def bindAscending {κ : Type u} {β : Type v} [Ordered κ] (k : κ) (f : Option β → β) :
    List (κ × β) → List (κ × β)
  | [] => [(k, f none)]
  | (k', v) :: rest =>
    if Ordered.less k k' then (k, f none) :: (k', v) :: rest
    else if Ordered.less k' k then (k', v) :: bindAscending k f rest
    else (k, f (some v)) :: rest

/-- The value bound to `k` in a list of bindings. -/
def findBinding {κ : Type u} {β : Type v} [Ordered κ] (k : κ) : List (κ × β) → Option β
  | [] => none
  | (k', v) :: rest =>
    if Ordered.less k k' then findBinding k rest
    else if Ordered.less k' k then findBinding k rest
    else some v

section Lists

variable {κ : Type u} {β : Type v} [Ordered κ]

theorem findBinding_cons {k k' : κ} {v : β} {rest : List (κ × β)} [DecidableEq κ] :
    findBinding k ((k', v) :: rest) = if k = k' then some v else findBinding k rest := by
  simp only [findBinding]
  by_cases h : k = k'
  · subst h
    simp [Ordered.irrefl]
  · rcases Ordered.connected k k' with hl | he | hl
    · simp [hl, h]
    · exact absurd he h
    · simp [hl, Ordered.asymm hl, h]

theorem findBinding_eq_none_iff {k : κ} : ∀ {l : List (κ × β)},
    findBinding k l = none ↔ ∀ p ∈ l, p.1 ≠ k
  | [] => by simp [findBinding]
  | (k', v) :: rest => by
    classical
    rw [findBinding_cons]
    split
    · simp_all
    · rw [findBinding_eq_none_iff]
      simp_all [eq_comm]

/-- Where the keys ascend, the look-up finds exactly the listed bindings. -/
theorem findBinding_eq_some_iff {k : κ} {v : β} : ∀ {l : List (κ × β)}, AscendingKeys l →
    (findBinding k l = some v ↔ (k, v) ∈ l)
  | [], _ => by simp [findBinding]
  | (k', v') :: rest, h => by
    classical
    obtain ⟨hk, hrest⟩ := List.pairwise_cons.mp h
    rw [findBinding_cons]
    split
    · rename_i hkk
      subst hkk
      constructor
      · rintro ⟨rfl⟩
        exact List.mem_cons_self
      · intro hmem
        rcases List.mem_cons.mp hmem with heq | hmem
        · simp_all
        · exact absurd rfl (Ordered.ne_of_less (hk (k, v) hmem))
    · rename_i hkk
      rw [findBinding_eq_some_iff hrest]
      simp [hkk]

theorem mem_keys_bindAscending {k x : κ} {f : Option β → β} : ∀ {l : List (κ × β)},
    (∃ v, (x, v) ∈ bindAscending k f l) ↔ x = k ∨ ∃ v, (x, v) ∈ l
  | [] => by simp [bindAscending]
  | (k', v') :: rest => by
    simp only [bindAscending]
    split
    · simp only [List.mem_cons, Prod.mk.injEq]
      grind
    · split
      · have := mem_keys_bindAscending (k := k) (x := x) (f := f) (l := rest)
        simp only [List.mem_cons, Prod.mk.injEq]
        grind
      · rename_i h h'
        have : k = k' := Ordered.eq_of_not_less (by simpa using h) (by simpa using h')
        subst this
        simp only [List.mem_cons, Prod.mk.injEq]
        grind

theorem ascendingKeys_bindAscending {k : κ} {f : Option β → β} : ∀ {l : List (κ × β)},
    AscendingKeys l → AscendingKeys (bindAscending k f l)
  | [], _ => by simp [bindAscending]
  | (k', v') :: rest, h => by
    obtain ⟨hk, hrest⟩ := List.pairwise_cons.mp h
    simp only [bindAscending]
    split
    · rename_i hkk
      refine List.pairwise_cons.mpr ⟨?_, h⟩
      intro p hp
      rcases List.mem_cons.mp hp with rfl | hp
      · exact hkk
      · exact Ordered.trans hkk (hk p hp)
    · split
      · rename_i hkk
        refine List.pairwise_cons.mpr ⟨?_, ascendingKeys_bindAscending hrest⟩
        rintro ⟨x, v⟩ hp
        rcases mem_keys_bindAscending.mp ⟨v, hp⟩ with rfl | ⟨u, hu⟩
        · exact hkk
        · exact hk (x, u) hu
      · rename_i h1 h2
        have : k = k' := Ordered.eq_of_not_less (by simpa using h1) (by simpa using h2)
        subst this
        exact List.pairwise_cons.mpr ⟨hk, hrest⟩

theorem findBinding_bindAscending [DecidableEq κ] {k x : κ} {f : Option β → β} :
    ∀ {l : List (κ × β)}, AscendingKeys l →
      findBinding x (bindAscending k f l) =
        if x = k then some (f (findBinding k l)) else findBinding x l
  | [], _ => by
    simp only [bindAscending, findBinding_cons]
    split <;> simp [findBinding]
  | (k', v') :: rest, h => by
    obtain ⟨hk, hrest⟩ := List.pairwise_cons.mp h
    simp only [bindAscending]
    split
    · rename_i hlt
      have hnone : findBinding k ((k', v') :: rest) = none := by
        rw [findBinding_eq_none_iff]
        intro p hp
        rcases List.mem_cons.mp hp with rfl | hp
        · exact (Ordered.ne_of_less hlt).symm
        · exact (Ordered.ne_of_less (Ordered.trans hlt (hk p hp))).symm
      rw [findBinding_cons, hnone]
    · split
      · rename_i hlt
        rw [findBinding_cons, findBinding_bindAscending hrest, findBinding_cons, findBinding_cons]
        have : k ≠ k' := (Ordered.ne_of_less hlt).symm
        grind
      · rename_i h1 h2
        have : k = k' := Ordered.eq_of_not_less (by simpa using h1) (by simpa using h2)
        subst this
        rw [findBinding_cons, findBinding_cons, findBinding_cons]
        grind

/-- Lists with ascending keys that agree on every look-up are equal. -/
theorem eq_of_findBinding : ∀ {l m : List (κ × β)}, AscendingKeys l → AscendingKeys m →
    (∀ k, findBinding k l = findBinding k m) → l = m := by
  intro l m hl hm h
  have same : ∀ p, p ∈ l ↔ p ∈ m := fun ⟨k, v⟩ => by
    rw [← findBinding_eq_some_iff hl, ← findBinding_eq_some_iff hm, h]
  clear h
  induction l generalizing m with
  | nil =>
    cases m with
    | nil => rfl
    | cons b _ => exact absurd ((same b).mpr List.mem_cons_self) List.not_mem_nil
  | cons a as ih =>
    cases m with
    | nil => exact absurd ((same a).mp List.mem_cons_self) List.not_mem_nil
    | cons b bs =>
      obtain ⟨ha, has⟩ := List.pairwise_cons.mp hl
      obtain ⟨hb, hbs⟩ := List.pairwise_cons.mp hm
      have hab : a = b := by
        rcases List.mem_cons.mp ((same a).mp List.mem_cons_self) with hab | hmem
        · exact hab
        · rcases List.mem_cons.mp ((same b).mpr List.mem_cons_self) with hba | hmem'
          · exact hba.symm
          · have h1 := hb a hmem
            have h2 := ha b hmem'
            rw [Ordered.asymm h1] at h2
            contradiction
      subst hab
      congr 1
      refine ih has hbs fun p => ?_
      constructor
      · intro hp
        rcases List.mem_cons.mp ((same p).mp (List.mem_cons_of_mem _ hp)) with rfl | hp'
        · exact absurd rfl (Ordered.ne_of_less (ha p hp))
        · exact hp'
      · intro hp
        rcases List.mem_cons.mp ((same p).mpr (List.mem_cons_of_mem _ hp)) with rfl | hp'
        · exact absurd rfl (Ordered.ne_of_less (hb p hp))
        · exact hp'

end Lists

/-- **A finite map**, listed in ascending order of its keys. -/
structure OrderedMap (κ : Type u) (β : Type v) [Ordered κ] where
  /-- The bindings, one for each key, in ascending order of the keys. -/
  toList : List (κ × β)
  ascending : AscendingKeys toList
  deriving DecidableEq

namespace OrderedMap

variable {κ : Type u} {β : Type v} [Ordered κ]

/-- The value of a key. -/
def find? (m : OrderedMap κ β) (k : κ) : Option β := findBinding k m.toList

/-- Whether a key has a value. -/
def contains (m : OrderedMap κ β) (k : κ) : Bool := (m.find? k).isSome

theorem mem_toList {m : OrderedMap κ β} {k : κ} {v : β} :
    (k, v) ∈ m.toList ↔ m.find? k = some v :=
  (findBinding_eq_some_iff m.ascending).symm

/-- **Maps with the same look-ups are equal.** -/
theorem ext {m n : OrderedMap κ β} (h : ∀ k, m.find? k = n.find? k) : m = n := by
  obtain ⟨l, hl⟩ := m
  obtain ⟨l', hl'⟩ := n
  have : l = l' := eq_of_findBinding hl hl' h
  subst this
  rfl

/-! ## 1. Building maps -/

/-- The map without keys. -/
def empty : OrderedMap κ β := ⟨[], .nil⟩

instance : EmptyCollection (OrderedMap κ β) := ⟨empty⟩

instance : Inhabited (OrderedMap κ β) := ⟨empty⟩

@[simp] theorem find?_empty {k : κ} : (∅ : OrderedMap κ β).find? k = none := rfl

/-- Binds `k` to `f` of the value it has so far. -/
def alter (m : OrderedMap κ β) (k : κ) (f : Option β → β) : OrderedMap κ β :=
  ⟨bindAscending k f m.toList, ascendingKeys_bindAscending m.ascending⟩

@[simp] theorem find?_alter [DecidableEq κ] {m : OrderedMap κ β} {k x : κ} {f : Option β → β} :
    (m.alter k f).find? x = if x = k then some (f (m.find? k)) else m.find? x :=
  findBinding_bindAscending m.ascending

/-- Binds `k` to `v`, whatever it was bound to before. -/
def insert (m : OrderedMap κ β) (k : κ) (v : β) : OrderedMap κ β := m.alter k fun _ => v

@[simp] theorem find?_insert [DecidableEq κ] {m : OrderedMap κ β} {k x : κ} {v : β} :
    (m.insert k v).find? x = if x = k then some v else m.find? x :=
  find?_alter

/-- The map of a list of bindings; of two bindings of one key the later one counts. -/
def ofList (l : List (κ × β)) : OrderedMap κ β := l.foldl (fun m p => m.insert p.1 p.2) ∅

theorem find?_foldl_insert_keyed [DecidableEq κ] {x : κ} {f : κ → β} :
    ∀ {l : List κ} {m : OrderedMap κ β},
      ((l.map fun k => (k, f k)).foldl (fun acc p => acc.insert p.1 p.2) m).find? x =
        if x ∈ l then some (f x) else m.find? x
  | [], m => by simp
  | k :: rest, m => by
    rw [List.map_cons, List.foldl_cons, find?_foldl_insert_keyed, find?_insert]
    by_cases hk : x = k <;> simp [hk]

/-- A map that binds every element of a list to a value made from it. -/
theorem find?_ofList_keyed [DecidableEq κ] {l : List κ} {f : κ → β} {x : κ} :
    (ofList (l.map fun k => (k, f k))).find? x = if x ∈ l then some (f x) else none :=
  find?_foldl_insert_keyed

/-- A map that binds every element of a list to the same value. -/
theorem find?_ofList_const [DecidableEq κ] {l : List κ} {v : β} {x : κ} :
    (ofList (l.map fun k => (k, v))).find? x = if x ∈ l then some v else none :=
  find?_ofList_keyed

/-- The bindings of both maps; a key of both has its value in the second one. -/
def merge (m n : OrderedMap κ β) : OrderedMap κ β :=
  n.toList.foldl (fun acc p => acc.insert p.1 p.2) m

theorem find?_foldl_insert [DecidableEq κ] {x : κ} : ∀ {l : List (κ × β)} {m : OrderedMap κ β},
    AscendingKeys l → (l.foldl (fun acc p => acc.insert p.1 p.2) m).find? x =
      (findBinding x l).or (m.find? x)
  | [], m, _ => by simp [findBinding]
  | (k, v) :: rest, m, h => by
    obtain ⟨hk, hrest⟩ := List.pairwise_cons.mp h
    rw [List.foldl_cons, find?_foldl_insert hrest, find?_insert, findBinding_cons]
    split
    · rename_i hx
      subst hx
      have : findBinding x rest = none := by
        rw [findBinding_eq_none_iff]
        exact fun p hp => (Ordered.ne_of_less (hk p hp)).symm
      simp [this]
    · rfl

@[simp] theorem find?_merge [DecidableEq κ] {m n : OrderedMap κ β} {x : κ} :
    (m.merge n).find? x = (n.find? x).or (m.find? x) :=
  find?_foldl_insert n.ascending

theorem empty_merge [DecidableEq κ] (m : OrderedMap κ β) : (∅ : OrderedMap κ β).merge m = m := by
  refine ext fun k => ?_
  rw [find?_merge, find?_empty, Option.or_none]

theorem merge_assoc [DecidableEq κ] (m n o : OrderedMap κ β) :
    (m.merge n).merge o = m.merge (n.merge o) := by
  refine ext fun k => ?_
  rw [find?_merge, find?_merge, find?_merge, find?_merge, Option.or_assoc]

/-- A binding is entered as a map of its own. -/
theorem insert_eq_merge [DecidableEq κ] (m : OrderedMap κ β) (k : κ) (v : β) :
    m.insert k v = m.merge ((∅ : OrderedMap κ β).insert k v) := by
  refine ext fun x => ?_
  rw [find?_merge, find?_insert, find?_insert]
  split
  · rfl
  · rfl

/-! ## 2. Listing -/

/-- The keys, ascending. -/
def keys (m : OrderedMap κ β) : List κ := m.toList.map Prod.fst

/-- The values, in the order of their keys. -/
def values (m : OrderedMap κ β) : List β := m.toList.map Prod.snd

/-- The number of keys. -/
def size (m : OrderedMap κ β) : Nat := m.toList.length

/-- Whether there are no keys. -/
def isEmpty (m : OrderedMap κ β) : Bool := m.toList.isEmpty

theorem nodup_keys (m : OrderedMap κ β) : m.keys.Nodup :=
  List.pairwise_map.mpr (m.ascending.imp Ordered.ne_of_less)

theorem mem_keys {m : OrderedMap κ β} {k : κ} : k ∈ m.keys ↔ m.contains k = true := by
  simp only [keys, List.mem_map, contains, Option.isSome_iff_exists, ← mem_toList]
  constructor
  · rintro ⟨⟨x, v⟩, h, rfl⟩
    exact ⟨v, h⟩
  · rintro ⟨v, h⟩
    exact ⟨(k, v), h, rfl⟩

end OrderedMap

end FormalLang
