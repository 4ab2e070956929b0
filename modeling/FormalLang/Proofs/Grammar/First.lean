import FormalLang.Grammar.First
import FormalLang.Proofs.Grammar.WellFormed
import FormalLang.Proofs.Grammar.Yield
import FormalLang.Proofs.Ordered.Growth

/-!
# The FIRST sets are closed under the rules

`FirstSets.Begins` says in words what the FIRST set of a sequence computes: the terminals it can
begin with and, if all of it can vanish, `ε`.  Sets are closed under a grammar (`FirstSets.Closed`)
if every variable has all that its bodies begin with.

* `exists_compute_closed`: the search ends, without a fault, in closed sets, whatever the order in
  which it looks at the variables first.
* `Closed.begins_of_yields`: closed sets know how every yielded word begins.

**Why the search ends.**  A look at a variable either removes it from the queue or makes its set
larger and adds at most all variables to the queue.  Sets hold terminals of the grammar and `ε`, so
that the room left in them pays for what is added (`Search.weight`).

**Why they are closed at the end.**  A variable that is not in the queue has what its bodies begin
with, for when one of the sets that its bodies mention grows, the variable is put into the queue
(`Search.Sound.settled`).  The search compares sizes and not members, which is enough because a set
never has members that its bodies do not begin with (`Search.Sound.founded`).
-/

namespace FormalLang

/-! ## 1. What sequences begin with -/

namespace FirstSets

/-- Whether a symbol is in the FIRST set of a variable. -/
def Has (first : FirstSets) (name : String) (x : Symbol) : Prop :=
  ∃ s, first.get? name = some s ∧ x ∈ s

/-- Whether a sequence begins with a terminal, or vanishes in the case of `ε`. -/
inductive Begins (first : FirstSets) : List Goal → Symbol → Prop where
  | nil : Begins first [] .epsilon
  | terminal (t : Terminal) (rest : List Goal) :
      Begins first (.terminal t :: rest) (.terminal t)
  | found {name : String} {rest : List Goal} {x : Symbol} (has : first.Has name x)
      (hx : x ≠ .epsilon) : Begins first (.variable name :: rest) x
  | vanish {name : String} {rest : List Goal} {x : Symbol} (has : first.Has name .epsilon)
      (h : Begins first rest x) : Begins first (.variable name :: rest) x

variable {first : FirstSets} {x : Symbol}

theorem begins_nil_iff : first.Begins [] x ↔ x = .epsilon := by
  constructor
  · rintro ⟨⟩
    rfl
  · rintro rfl
    exact .nil

theorem begins_terminal_cons_iff {t : Terminal} {rest : List Goal} :
    first.Begins (.terminal t :: rest) x ↔ x = .terminal t := by
  constructor
  · rintro ⟨⟩
    rfl
  · rintro rfl
    exact .terminal t rest

theorem begins_variable_cons_iff {name : String} {rest : List Goal} :
    first.Begins (.variable name :: rest) x ↔
      first.Has name x ∧ x ≠ .epsilon ∨ first.Has name .epsilon ∧ first.Begins rest x := by
  constructor
  · rintro (_ | _ | ⟨has, hx⟩ | ⟨has, h⟩)
    · exact .inl ⟨has, hx⟩
    · exact .inr ⟨has, h⟩
  · rintro (⟨has, hx⟩ | ⟨has, h⟩)
    · exact .found has hx
    · exact .vanish has h

/-- A sequence begins like its front, and like its back where the front can vanish. -/
theorem begins_append_iff {front back : List Goal} : first.Begins (front ++ back) x ↔
    first.Begins front x ∧ x ≠ .epsilon ∨ first.Begins front .epsilon ∧ first.Begins back x := by
  induction front with
  | nil => simp [begins_nil_iff]
  | cons goal front ih =>
    rcases goal with t | name
    · rw [List.cons_append, begins_terminal_cons_iff, begins_terminal_cons_iff,
        begins_terminal_cons_iff]
      constructor
      · rintro rfl
        exact .inl ⟨rfl, by simp⟩
      · rintro (⟨h, -⟩ | ⟨h, -⟩)
        · exact h
        · contradiction
    · rw [List.cons_append, begins_variable_cons_iff, begins_variable_cons_iff,
        begins_variable_cons_iff, ih]
      grind

/-- The FIRST set of a body holds what the body begins with. -/
theorem mem_ofBody_iff : ∀ {body : List Symbol} {s : OrderedSet Symbol},
    first.ofBody body = .ok s → (x ∈ s ↔ first.Begins (Body.goals body) x)
  | [], s, h => by
    obtain rfl := Except.ok.inj h
    rw [OrderedSet.mem_singleton]
    exact begins_nil_iff.symm
  | .epsilon :: rest, s, h => by
    rw [ofBody] at h
    change x ∈ s ↔ first.Begins (Body.goals rest) x
    exact mem_ofBody_iff h
  | .terminal t :: rest, s, h => by
    obtain rfl := Except.ok.inj h
    rw [OrderedSet.mem_singleton]
    exact begins_terminal_cons_iff.symm
  | .variable name :: rest, s, h => by
    change x ∈ s ↔ first.Begins (.variable name :: Body.goals rest) x
    rw [begins_variable_cons_iff]
    rw [ofBody] at h
    split at h
    · contradiction
    · rename_i known hknown
      have hhas : ∀ y, first.Has name y ↔ y ∈ known := fun y => by
        constructor
        · rintro ⟨t, ht, hy⟩
          rw [hknown] at ht
          exact Option.some.inj ht ▸ hy
        · exact fun hy => ⟨known, hknown, hy⟩
      rw [hhas, hhas]
      split at h
      · rename_i hvanish
        split at h
        · contradiction
        · rename_i r hr
          obtain rfl := Except.ok.inj h
          rw [OrderedSet.mem_union, OrderedSet.mem_filter, mem_ofBody_iff hr]
          simp [hvanish]
      · rename_i hvanish
        obtain rfl := Except.ok.inj h
        constructor
        · exact fun hx => .inl ⟨hx, fun e => hvanish (e ▸ hx)⟩
        · rintro (⟨hx, -⟩ | ⟨h, -⟩)
          · exact hx
          · exact absurd h hvanish

/-- A body whose variables have sets has a FIRST set. -/
theorem exists_ofBody : ∀ {body : List Symbol},
    (∀ name, .variable name ∈ body → (first.get? name).isSome) → ∃ s, first.ofBody body = .ok s
  | [], _ => ⟨_, rfl⟩
  | .epsilon :: rest, h => by
    rw [ofBody]
    exact exists_ofBody fun name hname => h name (List.mem_cons_of_mem _ hname)
  | .terminal t :: rest, _ => ⟨_, rfl⟩
  | .variable name :: rest, h => by
    obtain ⟨known, hknown⟩ := Option.isSome_iff_exists.mp (h name List.mem_cons_self)
    obtain ⟨r, hr⟩ := exists_ofBody fun name hname => h name (List.mem_cons_of_mem _ hname)
    rw [ofBody, hknown, hr]
    dsimp only
    split
    · exact ⟨_, rfl⟩
    · exact ⟨_, rfl⟩

theorem mem_ofBodies_iff : ∀ {bodies : List Body} {s : OrderedSet Symbol},
    first.ofBodies bodies = .ok s → (x ∈ s ↔ ∃ body ∈ bodies, first.Begins body.goals x)
  | [], s, h => by
    obtain rfl := Except.ok.inj h
    simp
  | body :: rest, s, h => by
    rw [ofBodies] at h
    split at h
    · contradiction
    · rename_i hbody
      split at h
      · contradiction
      · rename_i hrest
        obtain rfl := Except.ok.inj h
        rw [OrderedSet.mem_union, mem_ofBody_iff hbody, mem_ofBodies_iff hrest]
        simp

theorem exists_ofBodies : ∀ {bodies : List Body},
    (∀ body ∈ bodies, ∀ name, .variable name ∈ body → (first.get? name).isSome) →
      ∃ s, first.ofBodies bodies = .ok s
  | [], _ => ⟨_, rfl⟩
  | body :: rest, h => by
    obtain ⟨s, hs⟩ := exists_ofBody (h body List.mem_cons_self)
    obtain ⟨r, hr⟩ := exists_ofBodies fun b hb => h b (List.mem_cons_of_mem _ hb)
    exact ⟨s ∪ r, by rw [ofBodies, hs, hr]⟩

/-- Larger sets of the variables in a sequence make the sequence begin with more. -/
theorem Begins.mono {first' : FirstSets} {form : List Goal} (h : first.Begins form x) :
    (∀ name, Goal.variable name ∈ form → ∀ y, first.Has name y → first'.Has name y) →
      first'.Begins form x := by
  induction h with
  | nil => exact fun _ => .nil
  | terminal t rest => exact fun _ => .terminal t rest
  | found has hx => exact fun sub => .found (sub _ List.mem_cons_self _ has) hx
  | vanish has _ ih =>
    exact fun sub => .vanish (sub _ List.mem_cons_self _ has)
      (ih fun name hname => sub name (List.mem_cons_of_mem _ hname))

/-! ## 2. Closed sets -/

/-- **Sets are closed under a grammar** if every variable has one and has what its bodies begin
with. -/
structure Closed (g : Grammar) (first : FirstSets) : Prop where
  total : ∀ name ∈ g.variableNames, (first.get? name).isSome
  closed : ∀ name, ∀ body ∈ g.bodiesOf name, ∀ x, first.Begins body.goals x → first.Has name x

/-- How a word begins: with its first terminal, or not at all. -/
def beginning : List Terminal → Symbol
  | [] => .epsilon
  | t :: _ => .terminal t

/-- **Closed sets know how every yielded word begins.** -/
theorem Closed.begins_of_yields {g : Grammar} (closed : Closed g first) {form : List Goal}
    {word : List Terminal} (h : g.Yields form word) : first.Begins form (beginning word) := by
  induction h with
  | nil => exact .nil
  | @take t form word _ _ => exact .terminal t form
  | @expand name body form word rule _ ih =>
    rcases begins_append_iff.mp ih with ⟨hbody, hx⟩ | ⟨hbody, hrest⟩
    · exact .found (closed.closed name body rule _ hbody) hx
    · exact .vanish (closed.closed name body rule _ hbody) hrest

/-! ## 3. One look at a variable -/

/-- The symbols that FIRST sets can have. -/
def alphabet (g : Grammar) : List Symbol := .epsilon :: g.terminals.toList.map .terminal

/-- How many symbols the FIRST set of a name has. -/
def sizeOf (first : FirstSets) (name : String) : Nat := ((first.get? name).getD ∅).size

theorem get?_insert (sets : OrderedMap String (OrderedSet Symbol)) (head name : String)
    (found : OrderedSet Symbol) : FirstSets.get? ⟨sets.insert head found⟩ name =
      if name = head then some found else FirstSets.get? ⟨sets⟩ name :=
  OrderedMap.find?_insert

theorem has_insert_iff {head name : String} {found : OrderedSet Symbol} :
    FirstSets.Has ⟨first.sets.insert head found⟩ name x ↔
      if name = head then x ∈ found else first.Has name x := by
  rw [Has, get?_insert]
  split
  · simp
  · exact Iff.rfl

theorem mem_enqueue_iff {queue names : List String} {name : String} :
    name ∈ enqueue queue names ↔ name ∈ queue ∨ name ∈ names := by
  rw [enqueue, List.mem_append, List.mem_filter, decide_eq_true_eq]
  grind

theorem length_enqueue_le (queue names : List String) :
    (enqueue queue names).length ≤ queue.length + names.length := by
  rw [enqueue, List.length_append]
  have := List.length_filter_le (fun name => decide (name ∉ queue)) names
  omega

theorem mem_dependents_iff {g : Grammar} (nodup : g.variableNames.Nodup) {name head : String} :
    head ∈ dependents g name ↔ ∃ body ∈ g.bodiesOf head, .variable name ∈ body := by
  simp only [dependents, OrderedSet.mem_ofList, List.mem_map, List.mem_filter, decide_eq_true_eq]
  constructor
  · rintro ⟨r, ⟨hr, hname⟩, rfl⟩
    exact ⟨r.body, List.mem_of_getElem? ((Grammar.mem_rules_iff nodup).mp hr), hname⟩
  · rintro ⟨body, hbody, hname⟩
    obtain ⟨i, hi⟩ := List.getElem?_of_mem hbody
    exact ⟨⟨head, i, body⟩, ⟨(Grammar.mem_rules_iff nodup).mpr hi, hname⟩, rfl⟩

namespace Search

/-- What holds of the search at any time. -/
structure Sound (g : Grammar) (s : Search) : Prop where
  total : ∀ name ∈ g.variableNames, (s.first.get? name).isSome
  pending : ∀ name ∈ s.pending, name ∈ g.variableNames
  bounded : ∀ name x, s.first.Has name x → x ∈ alphabet g
  founded : ∀ name x, s.first.Has name x → ∃ body ∈ g.bodiesOf name, s.first.Begins body.goals x
  settled : ∀ name, name ∉ s.pending → ∀ body ∈ g.bodiesOf name, ∀ x,
    s.first.Begins body.goals x → s.first.Has name x

/-- What the search can still cost: the queue, and all that growing sets can add to it. -/
def weight (g : Grammar) (s : Search) : Nat :=
  s.pending.length +
    g.variableNames.length * room (alphabet g).length s.first.sizeOf g.variableNames

variable {g : Grammar} {s : Search}

theorem Sound.mem_alphabet (h : Sound g s) {head : String} {body : Body}
    (hbody : body ∈ g.bodiesOf head) (nodup : g.variableNames.Nodup)
    (hx : s.first.Begins body.goals x) : x ∈ alphabet g := by
  have hterminals : ∀ t, Goal.terminal t ∈ body.goals → Symbol.terminal t ∈ alphabet g :=
    fun t ht => List.mem_cons_of_mem _ (List.mem_map_of_mem
      (Grammar.mem_terminals_of_mem_bodiesOf nodup hbody (Body.terminal_mem_goals.mp ht)))
  clear hbody
  generalize Body.goals body = form at hx hterminals
  induction hx with
  | nil => exact List.mem_cons_self
  | terminal t rest => exact hterminals t List.mem_cons_self
  | found has _ => exact h.bounded _ _ has
  | vanish _ _ ih => exact ih fun t ht => hterminals t (List.mem_cons_of_mem _ ht)

/-- **A look at a variable** finds what its bodies begin with; the set is replaced if that is of
another size, and then the variables that depend on it are looked at again. -/
theorem Sound.step_cases (wellFormed : g.WellFormed) (h : Sound g s) :
    s.pending = [] ∧ step g s = .ok none ∨
      ∃ head rest found, s.pending = head :: rest ∧
        (∀ x, x ∈ found ↔ ∃ body ∈ g.bodiesOf head, s.first.Begins body.goals x) ∧
        (found.size = s.first.sizeOf head ∧ step g s = .ok (some { s with pending := rest }) ∨
          found.size ≠ s.first.sizeOf head ∧ step g s = .ok (some
            { first := ⟨s.first.sets.insert head found⟩
              pending := enqueue rest (dependents g head).toList
              growth := s.growth ++ [(head, found.size)] })) := by
  rw [step]
  split
  · rename_i hpending
    exact .inl ⟨hpending, rfl⟩
  · rename_i head rest hpending
    have hhead : head ∈ g.variableNames := h.pending head (hpending ▸ List.mem_cons_self)
    obtain ⟨-, -, rules⟩ := Grammar.wellFormed_iff.mp wellFormed
    obtain ⟨found, hfound⟩ := exists_ofBodies fun body hbody name hname =>
      h.total name ((rules head body hbody).2 name hname)
    obtain ⟨known, hknown⟩ := Option.isSome_iff_exists.mp (h.total head hhead)
    have hsize : s.first.sizeOf head = known.size := by rw [sizeOf, hknown]; rfl
    refine .inr ⟨head, rest, found, hpending, fun x => mem_ofBodies_iff hfound, ?_⟩
    rw [Grammar.getBodies_eq_ok hhead, hsize]
    simp only [hfound, hknown]
    split
    · rename_i heq
      exact .inl ⟨heq, rfl⟩
    · rename_i hne
      exact .inr ⟨hne, rfl⟩

/-- Nothing changes for a name that is not looked at. -/
theorem Sound.skip (h : Sound g s) {head : String} {rest : List String}
    {found : OrderedSet Symbol} (hpending : s.pending = head :: rest)
    (hfound : ∀ x, x ∈ found ↔ ∃ body ∈ g.bodiesOf head, s.first.Begins body.goals x)
    (hsize : found.size = s.first.sizeOf head) (hhead : head ∈ g.variableNames) :
    Sound g { s with pending := rest } where
  total := h.total
  pending name hname := h.pending name (hpending ▸ List.mem_cons_of_mem _ hname)
  bounded := h.bounded
  founded := h.founded
  settled name hname body hbody x hx := by
    by_cases heq : name = head
    · subst heq
      -- the set is part of what its bodies begin with, and of the same size
      obtain ⟨known, hknown⟩ := Option.isSome_iff_exists.mp (h.total name hhead)
      have hsub : ∀ y ∈ known, y ∈ found := fun y hy =>
        (hfound y).mpr (h.founded name y ⟨known, hknown, hy⟩)
      have hknownSize : s.first.sizeOf name = known.size := by rw [sizeOf, hknown]; rfl
      have hsame := OrderedSet.eq_of_subset_of_size_le hsub (by omega)
      exact ⟨known, hknown, hsame ▸ (hfound x).mpr ⟨body, hbody, hx⟩⟩
    · refine h.settled name ?_ body hbody x hx
      rw [hpending, List.mem_cons, not_or]
      exact ⟨heq, hname⟩

/-- The set of the variable that is looked at becomes what its bodies begin with. -/
theorem Sound.grow (wellFormed : g.WellFormed) (h : Sound g s) {head : String}
    {rest : List String} {found : OrderedSet Symbol} {growth : List (String × Nat)}
    (hpending : s.pending = head :: rest)
    (hfound : ∀ x, x ∈ found ↔ ∃ body ∈ g.bodiesOf head, s.first.Begins body.goals x) :
    Sound g
      { first := ⟨s.first.sets.insert head found⟩
        pending := enqueue rest (dependents g head).toList
        growth } where
  total name hname := by
    rw [get?_insert]
    split
    · rfl
    · exact h.total name hname
  pending name hname := by
    rcases mem_enqueue_iff.mp hname with hname | hname
    · exact h.pending name (hpending ▸ List.mem_cons_of_mem _ hname)
    · obtain ⟨body, hbody, -⟩ := (mem_dependents_iff wellFormed.nodup).mp hname
      exact Grammar.mem_variableNames_of_mem_bodiesOf hbody
  bounded name x hx := by
    rw [has_insert_iff] at hx
    split at hx
    · obtain ⟨body, hbody, hx⟩ := (hfound x).mp hx
      exact h.mem_alphabet hbody wellFormed.nodup hx
    · exact h.bounded name x hx
  founded name x hx := by
    have hmono : ∀ name y, s.first.Has name y →
        FirstSets.Has ⟨s.first.sets.insert head found⟩ name y := by
      intro name y hy
      rw [has_insert_iff]
      split
      · rename_i heq
        subst heq
        exact (hfound y).mpr (h.founded name y hy)
      · exact hy
    rw [has_insert_iff] at hx
    have hbody : ∃ body ∈ g.bodiesOf name, s.first.Begins body.goals x := by
      split at hx
      · rename_i heq
        subst heq
        exact (hfound x).mp hx
      · exact h.founded name x hx
    obtain ⟨body, hbody, hx⟩ := hbody
    exact ⟨body, hbody, hx.mono fun name _ => hmono name⟩
  settled name hname body hbody x hx := by
    rw [mem_enqueue_iff, not_or] at hname
    -- a name outside the queue does not depend on the set that changed
    have hsame : s.first.Begins body.goals x := by
      refine hx.mono fun v hv y hy => ?_
      rw [has_insert_iff] at hy
      split at hy
      · rename_i heq
        subst heq
        refine absurd ?_ hname.2
        exact (mem_dependents_iff wellFormed.nodup).mpr
          ⟨body, hbody, Body.variable_mem_goals.mp hv⟩
      · exact hy
    rw [has_insert_iff]
    split
    · rename_i heq
      subst heq
      exact (hfound x).mpr ⟨body, hbody, hsame⟩
    · rename_i hne
      refine h.settled name ?_ body hbody x hsame
      rw [hpending, List.mem_cons, not_or]
      exact ⟨hne, hname.1⟩

/-- A set that grows makes up for all that it adds to the queue. -/
theorem Sound.weight_grow (wellFormed : g.WellFormed) (h : Sound g s) {head : String}
    {rest : List String} {found : OrderedSet Symbol} {growth : List (String × Nat)}
    (hpending : s.pending = head :: rest)
    (hfound : ∀ x, x ∈ found ↔ ∃ body ∈ g.bodiesOf head, s.first.Begins body.goals x)
    (hsize : found.size ≠ s.first.sizeOf head) :
    weight g
      { first := ⟨s.first.sets.insert head found⟩
        pending := enqueue rest (dependents g head).toList
        growth } < weight g s := by
  have hhead : head ∈ g.variableNames := h.pending head (hpending ▸ List.mem_cons_self)
  have hsizes : ∀ name, sizeOf ⟨s.first.sets.insert head found⟩ name =
      if name = head then found.size else s.first.sizeOf name := by
    intro name
    rw [sizeOf, get?_insert]
    split
    · rfl
    · rfl
  have hknown : s.first.sizeOf head ≤ found.size := by
    obtain ⟨known, hknown⟩ := Option.isSome_iff_exists.mp (h.total head hhead)
    rw [sizeOf, hknown]
    exact OrderedSet.size_le_of_subset fun y hy =>
      (hfound y).mpr (h.founded head y ⟨known, hknown, hy⟩)
  have hroom : room (alphabet g).length (sizeOf ⟨s.first.sets.insert head found⟩) g.variableNames <
      room (alphabet g).length s.first.sizeOf g.variableNames := by
    refine room_lt (fun name => ?_) ?_ ?_ hhead
    · rw [hsizes]
      split
      · rename_i heq
        subst heq
        exact hknown
      · exact Nat.le_refl _
    · rw [hsizes, if_pos rfl]
      omega
    · rw [hsizes, if_pos rfl]
      refine OrderedSet.size_le_length fun x hx => ?_
      obtain ⟨body, hbody, hx⟩ := (hfound x).mp hx
      exact h.mem_alphabet hbody wellFormed.nodup hx
  have hdependents : (dependents g head).toList.length ≤ g.variableNames.length := by
    refine OrderedSet.size_le_length fun name hname => ?_
    obtain ⟨body, hbody, -⟩ := (mem_dependents_iff wellFormed.nodup).mp hname
    exact Grammar.mem_variableNames_of_mem_bodiesOf hbody
  have hqueue := length_enqueue_le rest (dependents g head).toList
  have hpay := Nat.mul_le_mul_left g.variableNames.length (Nat.succ_le_of_lt hroom)
  rw [Nat.mul_succ] at hpay
  simp only [weight, hpending, List.length_cons]
  omega

/-- **One look keeps the invariant, finds no fault and lowers the weight.** -/
theorem Sound.step (wellFormed : g.WellFormed) (h : Sound g s) :
    Search.step g s = .ok none ∨
      ∃ s', Search.step g s = .ok (some s') ∧ Sound g s' ∧ weight g s' < weight g s := by
  rcases h.step_cases wellFormed with ⟨-, hstep⟩ | ⟨head, rest, found, hpending, hfound, hcases⟩
  · exact .inl hstep
  · have hhead : head ∈ g.variableNames := h.pending head (hpending ▸ List.mem_cons_self)
    rcases hcases with ⟨hsize, hstep⟩ | ⟨hsize, hstep⟩
    · refine .inr ⟨_, hstep, h.skip hpending hfound hsize hhead, ?_⟩
      simp only [weight, hpending, List.length_cons]
      omega
    · exact .inr ⟨_, hstep, h.grow wellFormed hpending hfound,
        h.weight_grow wellFormed hpending hfound hsize⟩

end Search

/-! ## 4. The whole search -/

theorem get?_blank {g : Grammar} {name : String} :
    (blank g).get? name = if name ∈ g.variableNames then some ∅ else none :=
  OrderedMap.find?_ofList_const

theorem not_has_blank {g : Grammar} {name : String} : ¬ (blank g).Has name x := by
  rintro ⟨s, hs, hx⟩
  rw [get?_blank] at hs
  split at hs
  · obtain rfl := Option.some.inj hs
    exact OrderedSet.not_mem_empty hx
  · contradiction

theorem Search.sound_blank {g : Grammar} {order : List String}
    (known : ∀ name ∈ order, name ∈ g.variableNames)
    (all : ∀ name ∈ g.variableNames, name ∈ order) : Sound g ⟨blank g, order, []⟩ where
  total name hname := by rw [get?_blank, if_pos hname]; rfl
  pending := known
  bounded name x hx := absurd hx not_has_blank
  founded name x hx := absurd hx not_has_blank
  settled name hname body hbody :=
    absurd (all name (Grammar.mem_variableNames_of_mem_bodiesOf hbody)) hname

theorem Search.weight_blank_lt {g : Grammar} {order : List String} :
    weight g ⟨blank g, order, []⟩ < rounds g order := by
  have hroom := @room_le (alphabet g).length (blank g).sizeOf g.variableNames
  have halphabet : (alphabet g).length = g.terminals.size + 1 := by
    simp [alphabet, OrderedSet.size]
  have hpay := Nat.mul_le_mul_left g.variableNames.length hroom
  rw [halphabet, ← Nat.mul_assoc] at hpay
  rw [weight, rounds, halphabet]
  dsimp only
  omega

/-- **The search ends**, whatever the order in which it looks at the variables: no variable waits any
more, and the invariant holds. -/
theorem exists_search {g : Grammar} (wellFormed : g.WellFormed) {order : List String}
    (known : ∀ name ∈ order, name ∈ g.variableNames)
    (all : ∀ name ∈ g.variableNames, name ∈ order) :
    ∃ s, search g order = .ok s ∧ Search.Sound g s ∧ s.pending = [] := by
  obtain ⟨s, hs, sound, hdone⟩ := iterateE_done (Search.weight g)
    (fun s (h : Search.Sound g s) => h.step wellFormed) (rounds g order) ⟨blank g, order, []⟩
    (Search.sound_blank known all) Search.weight_blank_lt
  refine ⟨s, hs, sound, ?_⟩
  rcases sound.step_cases wellFormed with ⟨h, -⟩ | ⟨_, _, _, _, _, ⟨_, h⟩ | ⟨_, h⟩⟩
  · exact h
  · rw [hdone] at h
    cases Except.ok.inj h
  · rw [hdone] at h
    cases Except.ok.inj h

/-- Sets are closed where no variable waits any more. -/
theorem Search.Sound.closed {g : Grammar} {s : Search} (sound : Search.Sound g s)
    (hpending : s.pending = []) : Closed g s.first := by
  refine ⟨sound.total, fun name body hbody x hx => sound.settled name ?_ body hbody x hx⟩
  rw [hpending]
  exact List.not_mem_nil

/-- **The search ends in closed sets**, whatever the order in which it looks at the variables. -/
theorem exists_compute_closed {g : Grammar} (wellFormed : g.WellFormed) {order : List String}
    (known : ∀ name ∈ order, name ∈ g.variableNames)
    (all : ∀ name ∈ g.variableNames, name ∈ order) :
    ∃ first, compute g order = .ok first ∧ Closed g first := by
  obtain ⟨s, hs, sound, hpending⟩ := exists_search wellFormed known all
  exact ⟨s.first, by rw [compute, hs], sound.closed hpending⟩

theorem exists_ofGrammar_closed {g : Grammar} (wellFormed : g.WellFormed) :
    ∃ first, ofGrammar g = .ok first ∧ Closed g first :=
  exists_compute_closed wellFormed (fun _ h => h) (fun _ h => h)

theorem closed_of_ofGrammar {g : Grammar} (wellFormed : g.WellFormed)
    (h : ofGrammar g = .ok first) : Closed g first := by
  obtain ⟨found, hfound, closed⟩ := exists_ofGrammar_closed wellFormed
  rw [h] at hfound
  exact Except.ok.inj hfound ▸ closed

end FirstSets

end FormalLang
