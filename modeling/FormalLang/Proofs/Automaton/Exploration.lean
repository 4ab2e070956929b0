import FormalLang.Automaton.Exploration
import FormalLang.Proofs.Ordered.Growth
import Mathlib.Data.Finset.Powerset

/-!
# An exploration finds everything

Explored from a start set, the sets that moves lead to are all found, each once, and the moves that
were found are all moves between them (`Explored`).  The automaton of such an exploration can be in
exactly the set that the moves on a word lead to (`Explored.run_iff`).

**Why the rounds suffice.**  A round takes a number from the queue and puts one in for every set
that it finds.  No set is found twice, and the members come from a list of at most `n`, so that at
most `2 ^ n` sets are found (`length_le_of_nodup`).
-/

namespace FormalLang

/-! ## 1. Words as moves -/

/-- Whether moves lead from one set to another with a word. -/
inductive Follows (next : Members → List (Char × Members)) : Members → List Char → Members → Prop
    where
  | nil (s : Members) : Follows next s [] s
  | cons {s t r : Members} {c : Char} {w : List Char} (move : (c, t) ∈ next s)
      (rest : Follows next t w r) : Follows next s (c :: w) r

namespace Exploration

/-! ## 2. Noting moves -/

/-- What happens when the moves out of a set are noted: the targets are found, and those that are
new wait for their turn. -/
structure Noted (source : Nat) (arrows : List (Char × Members)) (e e' : Exploration) : Prop where
  grows : ∃ more, e'.found = e.found ++ more
  nodup : e.found.Nodup → e'.found.Nodup
  waits : ∀ id ∈ e.pending, id ∈ e'.pending
  waiting : ∀ id ∈ e'.pending, id ∈ e.pending ∨ id < e'.found.length
  found : ∀ id s, e'.found[id]? = some s → e.found[id]? = some s ∨
    id ∈ e'.pending ∧ ∃ c, (c, s) ∈ arrows
  kept : ∀ m ∈ e.moves, m ∈ e'.moves
  made : ∀ m ∈ e'.moves, m ∈ e.moves ∨
    m.source = source ∧ (m.symbol, m.members) ∈ arrows ∧ e'.found[m.target]? = some m.members
  complete : ∀ c t, (c, t) ∈ arrows → ∃ m ∈ e'.moves,
    m.source = source ∧ m.symbol = c ∧ m.members = t
  count : e'.pending.length + e.found.length = e.pending.length + e'.found.length

theorem Noted.refl (source : Nat) (e : Exploration) : Noted source [] e e where
  grows := ⟨[], (List.append_nil _).symm⟩
  nodup h := h
  waits _ h := h
  waiting _ h := .inl h
  found _ _ h := .inl h
  kept _ h := h
  made _ h := .inl h
  complete := nofun
  count := rfl

/-- What has a number keeps it. -/
theorem Noted.getElem? {source : Nat} {arrows : List (Char × Members)} {e e' : Exploration}
    (h : Noted source arrows e e') {id : Nat} {s : Members} (hs : e.found[id]? = some s) :
    e'.found[id]? = some s := by
  obtain ⟨more, hmore⟩ := h.grows
  rw [hmore, List.getElem?_append_left (List.getElem?_eq_some_iff.mp hs).1]
  exact hs

theorem Noted.length_le {source : Nat} {arrows : List (Char × Members)} {e e' : Exploration}
    (h : Noted source arrows e e') : e.found.length ≤ e'.found.length := by
  obtain ⟨more, hmore⟩ := h.grows
  rw [hmore, List.length_append]
  exact Nat.le_add_right _ _

theorem Noted.trans {source : Nat} {arrows arrows' : List (Char × Members)}
    {e e' e'' : Exploration} (h : Noted source arrows e e') (h' : Noted source arrows' e' e'') :
    Noted source (arrows ++ arrows') e e'' where
  grows := by
    obtain ⟨more, hmore⟩ := h.grows
    obtain ⟨more', hmore'⟩ := h'.grows
    exact ⟨more ++ more', by rw [hmore', hmore, List.append_assoc]⟩
  nodup hn := h'.nodup (h.nodup hn)
  waits id hid := h'.waits id (h.waits id hid)
  waiting id hid := by
    rcases h'.waiting id hid with hid | hid
    · rcases h.waiting id hid with hid | hid
      · exact .inl hid
      · exact .inr (Nat.lt_of_lt_of_le hid h'.length_le)
    · exact .inr hid
  found id s hs := by
    rcases h'.found id s hs with hs | ⟨hid, c, hc⟩
    · rcases h.found id s hs with hs | ⟨hid, c, hc⟩
      · exact .inl hs
      · exact .inr ⟨h'.waits id hid, c, List.mem_append_left _ hc⟩
    · exact .inr ⟨hid, c, List.mem_append_right _ hc⟩
  kept m hm := h'.kept m (h.kept m hm)
  made m hm := by
    rcases h'.made m hm with hm | ⟨hsource, harrow, htarget⟩
    · rcases h.made m hm with hm | ⟨hsource, harrow, htarget⟩
      · exact .inl hm
      · exact .inr ⟨hsource, List.mem_append_left _ harrow, h'.getElem? htarget⟩
    · exact .inr ⟨hsource, List.mem_append_right _ harrow, htarget⟩
  complete c t harrow := by
    rcases List.mem_append.mp harrow with harrow | harrow
    · obtain ⟨m, hm, hmove⟩ := h.complete c t harrow
      exact ⟨m, h'.kept m hm, hmove⟩
    · exact h'.complete c t harrow
  count := by
    have := h.count
    have := h'.count
    omega

theorem noted_note (source : Nat) (e : Exploration) (arrow : Char × Members) :
    Noted source [arrow] e (note source e arrow) := by
  obtain ⟨c, t⟩ := arrow
  unfold note
  dsimp only
  split
  · rename_i id hid
    obtain ⟨hlt, hget, -⟩ := List.idxOf?_eq_some_iff.mp hid
    have hfound : e.found[id]? = some t := List.getElem?_eq_some_iff.mpr ⟨hlt, hget⟩
    refine ⟨⟨[], (List.append_nil _).symm⟩, fun h => h, fun _ h => h, fun _ h => .inl h,
      fun _ _ h => .inl h, fun m hm => List.mem_append_left _ hm, fun m hm => ?_, fun d s hs => ?_,
      rfl⟩
    · rcases List.mem_append.mp hm with hm | hm
      · exact .inl hm
      · obtain rfl := List.mem_singleton.mp hm
        exact .inr ⟨rfl, List.mem_cons_self, hfound⟩
    · obtain ⟨rfl, rfl⟩ := Prod.mk.inj (List.mem_singleton.mp hs)
      exact ⟨_, List.mem_append_right _ List.mem_cons_self, rfl, rfl, rfl⟩
  · rename_i hnone
    have hnew : t ∉ e.found := List.idxOf?_eq_none_iff.mp hnone
    have hlast : (e.found ++ [t])[e.found.length]? = some t := by simp
    refine ⟨⟨[t], rfl⟩, fun h => ?_, fun _ h => List.mem_cons_of_mem _ h, fun id hid => ?_,
      fun id s hs => ?_, fun m hm => List.mem_append_left _ hm, fun m hm => ?_, fun d s hs => ?_,
      ?_⟩
    · exact h.append (List.nodup_singleton t) (List.disjoint_singleton.mpr hnew)
    · rcases List.mem_cons.mp hid with rfl | hid
      · exact .inr (by simp)
      · exact .inl hid
    · dsimp only at hs ⊢
      rcases Nat.lt_or_ge id e.found.length with hlt | hge
      · rw [List.getElem?_append_left hlt] at hs
        exact .inl hs
      · have hlt := (List.getElem?_eq_some_iff.mp hs).1
        rw [List.length_append, List.length_singleton] at hlt
        obtain rfl : id = e.found.length := by omega
        rw [hlast] at hs
        obtain rfl := Option.some.inj hs
        exact .inr ⟨List.mem_cons_self, c, List.mem_cons_self⟩
    · rcases List.mem_append.mp hm with hm | hm
      · exact .inl hm
      · obtain rfl := List.mem_singleton.mp hm
        exact .inr ⟨rfl, List.mem_cons_self, hlast⟩
    · obtain ⟨rfl, rfl⟩ := Prod.mk.inj (List.mem_singleton.mp hs)
      exact ⟨_, List.mem_append_right _ List.mem_cons_self, rfl, rfl, rfl⟩
    · simp only [List.length_cons, List.length_append, List.length_nil]
      omega

theorem noted_foldl (source : Nat) : ∀ (arrows : List (Char × Members)) (e : Exploration),
    Noted source arrows e (arrows.foldl (note source) e)
  | [], e => .refl source e
  | arrow :: arrows, e => (noted_note source e arrow).trans (noted_foldl source arrows _)

/-! ## 3. The invariant -/

/-- What holds of an exploration at any time. -/
structure Sound (next : Members → List (Char × Members)) (start : Members) (all : List Nat)
    (e : Exploration) : Prop where
  begins : e.found[0]? = some start
  nodup : e.found.Nodup
  within : ∀ s ∈ e.found, ∀ x ∈ s, x ∈ all
  waiting : ∀ id ∈ e.pending, id < e.found.length
  made : ∀ m ∈ e.moves, ∃ s, e.found[m.source]? = some s ∧ (m.symbol, m.members) ∈ next s ∧
    e.found[m.target]? = some m.members
  settled : ∀ id s, e.found[id]? = some s → id ∉ e.pending → ∀ c t, (c, t) ∈ next s →
    ∃ m ∈ e.moves, m.source = id ∧ m.symbol = c ∧ m.members = t

/-- Sets that are all different are not more than the parts of a list. -/
theorem length_le_of_nodup {found : List Members} (nodup : found.Nodup) {all : List Nat}
    (within : ∀ s ∈ found, ∀ x ∈ s, x ∈ all) : found.length ≤ 2 ^ all.length := by
  have hinjective : Function.Injective fun s : Members => s.toList.toFinset := by
    intro s t hst
    refine OrderedSet.ext fun x => ?_
    dsimp only at hst
    rw [OrderedSet.mem_def, OrderedSet.mem_def, ← List.mem_toFinset, ← List.mem_toFinset, hst]
  have hsub : (found.map fun s => s.toList.toFinset).toFinset ⊆ all.toFinset.powerset := by
    intro part hpart
    obtain ⟨s, hs, rfl⟩ := List.mem_map.mp (List.mem_toFinset.mp hpart)
    rw [Finset.mem_powerset]
    intro x hx
    exact List.mem_toFinset.mpr (within s hs x (List.mem_toFinset.mp hx))
  have hcard := Finset.card_le_card hsub
  rw [List.toFinset_card_of_nodup (nodup.map hinjective), List.length_map,
    Finset.card_powerset] at hcard
  exact Nat.le_trans hcard (Nat.pow_le_pow_right (by decide) (List.toFinset_card_le all))

/-- What an exploration can still cost: the queue, and all sets that are not found yet. -/
def weight (n : Nat) (e : Exploration) : Nat := e.pending.length + (2 ^ n - e.found.length)

variable {next : Members → List (Char × Members)} {start : Members} {all : List Nat}
  {e e' : Exploration}

/-- **A round keeps the invariant and lowers the weight.** -/
theorem Sound.step (closed : ∀ s, (∀ x ∈ s, x ∈ all) → ∀ c t, (c, t) ∈ next s → ∀ x ∈ t, x ∈ all)
    {n : Nat} (hn : all.length ≤ n) (h : Sound next start all e)
    (hs : Exploration.step next e = some e') :
    Sound next start all e' ∧ e'.weight n < e.weight n := by
  unfold Exploration.step at hs
  split at hs
  · contradiction
  · rename_i id rest hpending
    have hid : id < e.found.length := h.waiting id (hpending ▸ List.mem_cons_self)
    obtain ⟨members, hmembers⟩ : ∃ members, e.found[id]? = some members :=
      ⟨_, List.getElem?_eq_getElem hid⟩
    rw [hmembers] at hs
    obtain rfl := Option.some.inj hs
    have hnoted := noted_foldl id (next members) { e with pending := rest }
    generalize (next members).foldl (note id) { e with pending := rest } = e' at hnoted ⊢
    have hwithin : ∀ s ∈ e'.found, ∀ x ∈ s, x ∈ all := by
      intro s hs
      obtain ⟨i, hi⟩ := List.getElem?_of_mem hs
      rcases hnoted.found i s hi with hi | ⟨-, c, hc⟩
      · exact h.within s (List.mem_of_getElem? hi)
      · exact closed members (h.within members (List.mem_of_getElem? hmembers)) c s hc
    refine ⟨⟨hnoted.getElem? h.begins, hnoted.nodup h.nodup, hwithin, fun i hi => ?_,
      fun m hm => ?_, fun i s hi hnot c t harrow => ?_⟩, ?_⟩
    · rcases hnoted.waiting i hi with hi | hi
      · exact Nat.lt_of_lt_of_le (h.waiting i (hpending ▸ List.mem_cons_of_mem _ hi))
          hnoted.length_le
      · exact hi
    · rcases hnoted.made m hm with hm | ⟨hsource, harrow, htarget⟩
      · obtain ⟨s, hsource, harrow, htarget⟩ := h.made m hm
        exact ⟨s, hnoted.getElem? hsource, harrow, hnoted.getElem? htarget⟩
      · exact ⟨members, by rw [hsource]; exact hnoted.getElem? hmembers, harrow, htarget⟩
    · rcases hnoted.found i s hi with hi | ⟨hpending', -⟩
      · by_cases heq : i = id
        · -- the set whose moves have just been noted
          subst heq
          rw [hmembers] at hi
          obtain rfl := Option.some.inj hi
          exact hnoted.complete c t harrow
        · have hnot' : i ∉ e.pending := by
            rw [hpending, List.mem_cons, not_or]
            exact ⟨heq, fun hmem => hnot (hnoted.waits i hmem)⟩
          obtain ⟨m, hm, hmove⟩ := h.settled i s hi hnot' c t harrow
          exact ⟨m, hnoted.kept m hm, hmove⟩
      · exact absurd hpending' hnot
    · have hbound := length_le_of_nodup (hnoted.nodup h.nodup) hwithin
      have hpow : 2 ^ all.length ≤ 2 ^ n := Nat.pow_le_pow_right (by decide) hn
      have hle := hnoted.length_le
      have hcount := hnoted.count
      simp only [weight, hpending, List.length_cons]
      dsimp only at hle hcount
      omega

theorem sound_begin (hstart : ∀ x ∈ start, x ∈ all) : Sound next start all (begin start) where
  begins := rfl
  nodup := List.nodup_singleton start
  within s hs := by
    obtain rfl := List.mem_singleton.mp hs
    exact hstart
  waiting id hid := by
    rw [List.mem_singleton.mp hid]
    exact Nat.one_pos
  made := nofun
  settled id s hs hnot := by
    have hlt := (List.getElem?_eq_some_iff.mp hs).1
    have hzero : id = 0 := Nat.lt_one_iff.mp hlt
    exact absurd (hzero ▸ List.mem_cons_self) hnot

/-! ## 4. Finished explorations -/

/-- **An exploration is finished**: the sets that moves lead to are found, each once, and the moves
that were found are those between them. -/
structure Explored (next : Members → List (Char × Members)) (start : Members) (e : Exploration) :
    Prop where
  begins : e.found[0]? = some start
  nodup : e.found.Nodup
  closed : ∀ s ∈ e.found, ∀ c t, (c, t) ∈ next s → t ∈ e.found
  moves : ∀ m, m ∈ e.moves ↔ ∃ s, e.found[m.source]? = some s ∧
    (m.symbol, m.members) ∈ next s ∧ e.found[m.target]? = some m.members

/-- A found set has one number. -/
theorem Explored.index_unique (h : Explored next start e) {i j : Nat} {s : Members}
    (hi : e.found[i]? = some s) (hj : e.found[j]? = some s) : i = j :=
  List.getElem?_inj (List.getElem?_eq_some_iff.mp hi).1 h.nodup |>.mp (hi.trans hj.symm)

theorem pending_eq_nil (h : Exploration.step next e = none) : e.pending = [] := by
  unfold Exploration.step at h
  split at h
  · assumption
  · split at h
    · contradiction
    · contradiction

/-- With nothing left to explore, all moves out of the found sets have been noted. -/
theorem Sound.explored (h : Sound next start all e) (hpending : e.pending = []) :
    Explored next start e := by
  have hmade : ∀ i s, e.found[i]? = some s → ∀ c t, (c, t) ∈ next s →
      ∃ m ∈ e.moves, m.source = i ∧ m.symbol = c ∧ m.members = t :=
    fun i s hi => h.settled i s hi (by simp [hpending])
  refine ⟨h.begins, h.nodup, fun s hs c t harrow => ?_, fun m => ⟨h.made m, ?_⟩⟩
  · obtain ⟨i, hi⟩ := List.getElem?_of_mem hs
    obtain ⟨m, hm, -, -, rfl⟩ := hmade i s hi c t harrow
    obtain ⟨_, -, -, htarget⟩ := h.made m hm
    exact List.mem_of_getElem? htarget
  · rintro ⟨s, hsource, harrow, htarget⟩
    obtain ⟨m', hm', hsource', hsymbol', hmembers'⟩ := hmade m.source s hsource _ _ harrow
    obtain ⟨_, -, -, htarget'⟩ := h.made m' hm'
    rw [hmembers'] at htarget'
    have hsame : m'.target = m.target :=
      List.getElem?_inj (List.getElem?_eq_some_iff.mp htarget').1 h.nodup |>.mp
        (htarget'.trans htarget.symm)
    have heq : m' = m := by
      obtain ⟨source, symbol, target, members⟩ := m
      obtain ⟨source', symbol', target', members'⟩ := m'
      simp_all
    exact heq ▸ hm'

/-- **The rounds of an exploration suffice**, if all members come from a list of that length. -/
theorem sound_run (closed : ∀ s, (∀ x ∈ s, x ∈ all) → ∀ c t, (c, t) ∈ next s → ∀ x ∈ t, x ∈ all)
    (hstart : ∀ x ∈ start, x ∈ all) {n : Nat} (hn : all.length ≤ n) :
    Sound next start all (run next n start) ∧
      Exploration.step next (run next n start) = none := by
  have hweight : (begin start).weight n < Nat.pow 2 n + 1 := by
    have hpos : 1 ≤ 2 ^ n := Nat.one_le_two_pow
    have hpow : Nat.pow 2 n = 2 ^ n := rfl
    simp only [weight, begin, List.length_singleton]
    omega
  have hsound : Sound next start all (begin start) := sound_begin hstart
  have hdone := iterate_done (weight n) (fun e e' h hs => Sound.step closed hn h hs) _ _ hsound
    hweight
  have hlast := iterate_invariant (fun e e' h hs => (Sound.step closed hn h hs).1)
    (Nat.pow 2 n + 1) _ hsound
  exact ⟨hlast, hdone⟩

theorem explored_run (closed : ∀ s, (∀ x ∈ s, x ∈ all) → ∀ c t, (c, t) ∈ next s → ∀ x ∈ t, x ∈ all)
    (hstart : ∀ x ∈ start, x ∈ all) {n : Nat} (hn : all.length ≤ n) :
    Explored next start (run next n start) := by
  obtain ⟨hsound, hdone⟩ := sound_run closed hstart hn
  exact hsound.explored (pending_eq_nil hdone)

/-! ## 5. The automaton of an exploration -/

/-- Where a map that is filled with moves has a value, a move has put it there. -/
theorem exists_move_of_find? {c : Char} {id : Nat} : ∀ {moves : List Move}
    {t : OrderedMap Char Nat},
    (moves.foldl (fun t m => t.insert m.symbol m.target) t).find? c = some id →
      t.find? c = some id ∨ ∃ m ∈ moves, m.symbol = c ∧ m.target = id
  | [], t, h => .inl h
  | m :: moves, t, h => by
    rw [List.foldl_cons] at h
    rcases exists_move_of_find? h with h | ⟨m', hm', hmove⟩
    · rw [OrderedMap.find?_insert] at h
      split at h
      · rename_i hc
        exact .inr ⟨m, List.mem_cons_self, hc.symm, Option.some.inj h⟩
      · exact .inl h
    · exact .inr ⟨m', List.mem_cons_of_mem _ hm', hmove⟩

theorem exists_find?_of_move {c : Char} : ∀ {moves : List Move} {t : OrderedMap Char Nat},
    (∃ id, t.find? c = some id) ∨ (∃ m ∈ moves, m.symbol = c) →
      ∃ id, (moves.foldl (fun t m => t.insert m.symbol m.target) t).find? c = some id
  | [], t, h => h.resolve_right (by simp)
  | m :: moves, t, h => by
    rw [List.foldl_cons]
    refine exists_find?_of_move ?_
    rw [OrderedMap.find?_insert]
    by_cases hc : c = m.symbol
    · rw [if_pos hc]
      exact .inl ⟨_, rfl⟩
    · rw [if_neg hc]
      rcases h with h | ⟨m', hm', hsymbol⟩
      · exact .inl h
      · rcases List.mem_cons.mp hm' with rfl | hm'
        · exact absurd hsymbol.symm hc
        · exact .inr ⟨m', hm', hsymbol⟩

/-- A transition is a move. -/
theorem exists_move_of_transitionsOf {moves : List Move} {source id : Nat} {c : Char}
    (h : (transitionsOf moves source).find? c = some id) :
    ∃ m ∈ moves, m.source = source ∧ m.symbol = c ∧ m.target = id := by
  rcases exists_move_of_find? h with h | ⟨m, hm, hmove⟩
  · contradiction
  · obtain ⟨hm, hsource⟩ := List.mem_filter.mp hm
    exact ⟨m, hm, of_decide_eq_true hsource, hmove⟩

/-- Moves that agree on their targets are the transitions. -/
theorem find?_transitionsOf_iff {moves : List Move} {source id : Nat} {c : Char}
    (agree : ∀ m ∈ moves, ∀ m' ∈ moves, m.source = m'.source → m.symbol = m'.symbol →
      m.target = m'.target) :
    (transitionsOf moves source).find? c = some id ↔
      ∃ m ∈ moves, m.source = source ∧ m.symbol = c ∧ m.target = id := by
  constructor
  · exact exists_move_of_transitionsOf
  · rintro ⟨m, hm, hsource, hsymbol, htarget⟩
    have hmem : m ∈ moves.filter fun m => decide (m.source = source) :=
      List.mem_filter.mpr ⟨hm, decide_eq_true hsource⟩
    obtain ⟨id', hid'⟩ : ∃ id', (transitionsOf moves source).find? c = some id' :=
      exists_find?_of_move (.inr ⟨m, hmem, hsymbol⟩)
    obtain ⟨m', hm', hsource', hsymbol', rfl⟩ := exists_move_of_transitionsOf hid'
    rw [hid', ← htarget, agree m hm m' hm' (hsource.trans hsource'.symm)
      (hsymbol.trans hsymbol'.symm)]

section Automaton

variable {accepting : Members → Bool}

theorem state?_toDfa (e : Exploration) (accepting : Members → Bool) (id : Nat) :
    (e.toDfa accepting).state? id =
      (e.found[id]?).map fun members => ⟨id, members, transitionsOf e.moves id⟩ := by
  rw [Dfa.state?, toDfa, List.getElem?_mapIdx]

theorem isAccepting_toDfa_iff (e : Exploration) (accepting : Members → Bool) (id : Nat) :
    (e.toDfa accepting).isAccepting id = true ↔
      ∃ s, e.found[id]? = some s ∧ accepting s = true := by
  simp only [Dfa.isAccepting, toDfa, decide_eq_true_eq, OrderedSet.mem_ofList, List.mem_filter,
    List.mem_range, Option.any_eq_true]
  constructor
  · rintro ⟨-, s, hs, haccepting⟩
    exact ⟨s, hs, haccepting⟩
  · rintro ⟨s, hs, haccepting⟩
    exact ⟨(List.getElem?_eq_some_iff.mp hs).1, s, hs, haccepting⟩

/-- **Moves from one state on one character have one target**, if a set has one move at most for
each character. -/
theorem Explored.target_unique (h : Explored next start e)
    (deterministic : ∀ s c t t', (c, t) ∈ next s → (c, t') ∈ next s → t = t') {m m' : Move}
    (hm : m ∈ e.moves) (hm' : m' ∈ e.moves) (hsource : m.source = m'.source)
    (hsymbol : m.symbol = m'.symbol) : m.target = m'.target := by
  obtain ⟨s, hs, harrow, htarget⟩ := (h.moves m).mp hm
  obtain ⟨s', hs', harrow', htarget'⟩ := (h.moves m').mp hm'
  rw [hsource, hs'] at hs
  obtain rfl := Option.some.inj hs
  rw [hsymbol] at harrow
  rw [deterministic _ _ _ _ harrow harrow'] at htarget
  exact h.index_unique htarget htarget'

/-- **The transitions are the moves**, if a set has one move at most for each character. -/
theorem Explored.transition?_iff (h : Explored next start e)
    (deterministic : ∀ s c t t', (c, t) ∈ next s → (c, t') ∈ next s → t = t') {i j : Nat}
    {c : Char} : (e.toDfa accepting).transition? i c = some j ↔
      ∃ s t, e.found[i]? = some s ∧ (c, t) ∈ next s ∧ e.found[j]? = some t := by
  have hagree : ∀ m ∈ e.moves, ∀ m' ∈ e.moves, m.source = m'.source → m.symbol = m'.symbol →
      m.target = m'.target :=
    fun _ hm _ hm' => h.target_unique deterministic hm hm'
  rw [Dfa.transition?, state?_toDfa]
  constructor
  · intro htransition
    cases hs : e.found[i]? with
    | none =>
      rw [hs] at htransition
      contradiction
    | some s =>
      rw [hs] at htransition
      obtain ⟨m, hm, rfl, rfl, rfl⟩ := (find?_transitionsOf_iff hagree).mp htransition
      obtain ⟨s', hs', harrow, htarget⟩ := (h.moves m).mp hm
      obtain rfl := Option.some.inj (hs.symm.trans hs')
      exact ⟨s, m.members, rfl, harrow, htarget⟩
  · rintro ⟨s, t, hs, harrow, htarget⟩
    rw [hs]
    exact (find?_transitionsOf_iff hagree).mpr
      ⟨⟨i, c, j, t⟩, (h.moves _).mpr ⟨s, hs, harrow, htarget⟩, rfl, rfl, rfl⟩

theorem runFrom_none (dfa : Dfa) (w : List Char) : dfa.runFrom none w = none := by
  cases w with
  | nil => rfl
  | cons c w => rfl

theorem Explored.runFrom_iff (h : Explored next start e)
    (deterministic : ∀ s c t t', (c, t) ∈ next s → (c, t') ∈ next s → t = t') :
    ∀ {w : List Char} {i j : Nat} {s : Members}, e.found[i]? = some s →
      ((e.toDfa accepting).runFrom (some i) w = some j ↔
        ∃ t, Follows next s w t ∧ e.found[j]? = some t)
  | [], i, j, s, hs => by
    constructor
    · intro hrun
      obtain rfl := Option.some.inj hrun
      exact ⟨s, .nil s, hs⟩
    · rintro ⟨t, hfollows, hj⟩
      cases hfollows
      exact congrArg some (h.index_unique hs hj)
  | c :: w, i, j, s, hs => by
    rw [Dfa.runFrom]
    constructor
    · intro hrun
      cases hmove : (e.toDfa accepting).transition? i c with
      | none =>
        rw [hmove, runFrom_none] at hrun
        contradiction
      | some k =>
        rw [hmove] at hrun
        obtain ⟨s', t, hs', harrow, ht⟩ := (h.transition?_iff deterministic).mp hmove
        obtain rfl := Option.some.inj (hs.symm.trans hs')
        obtain ⟨r, hfollows, hj⟩ := (h.runFrom_iff deterministic ht).mp hrun
        exact ⟨r, .cons harrow hfollows, hj⟩
    · rintro ⟨r, hfollows, hj⟩
      cases hfollows with
      | @cons _ t _ _ _ harrow hrest =>
        obtain ⟨k, hk⟩ := List.getElem?_of_mem (h.closed s (List.mem_of_getElem? hs) c t harrow)
        rw [(h.transition?_iff deterministic).mpr ⟨s, t, hs, harrow, hk⟩]
        exact (h.runFrom_iff deterministic hk).mpr ⟨r, hrest, hj⟩

/-- **A word leads to the set that the moves on it lead to.** -/
theorem Explored.run_iff (h : Explored next start e)
    (deterministic : ∀ s c t t', (c, t) ∈ next s → (c, t') ∈ next s → t = t') {w : List Char}
    {j : Nat} : (e.toDfa accepting).run w = some j ↔
      ∃ t, Follows next start w t ∧ e.found[j]? = some t :=
  h.runFrom_iff deterministic h.begins

theorem Follows.mem_found (h : Explored next start e) {s t : Members} {w : List Char}
    (hfollows : Follows next s w t) : s ∈ e.found → t ∈ e.found := by
  induction hfollows with
  | nil s => exact fun hs => hs
  | cons move _ ih => exact fun hs => ih (h.closed _ hs _ _ move)

/-- **A word is accepted if the moves on it lead to an accepting set.** -/
theorem Explored.accepts_iff (h : Explored next start e)
    (deterministic : ∀ s c t t', (c, t) ∈ next s → (c, t') ∈ next s → t = t') {w : List Char} :
    (e.toDfa accepting).accepts w = true ↔ ∃ t, Follows next start w t ∧ accepting t = true := by
  rw [Dfa.accepts, Option.any_eq_true]
  constructor
  · rintro ⟨j, hrun, haccepting⟩
    obtain ⟨t, hfollows, hj⟩ := (h.run_iff deterministic).mp hrun
    obtain ⟨s, hs, haccepting⟩ := (isAccepting_toDfa_iff e accepting j).mp haccepting
    obtain rfl := Option.some.inj (hj.symm.trans hs)
    exact ⟨t, hfollows, haccepting⟩
  · rintro ⟨t, hfollows, haccepting⟩
    have hstart : start ∈ e.found := List.mem_of_getElem? h.begins
    obtain ⟨j, hj⟩ := List.getElem?_of_mem (Follows.mem_found h hfollows hstart)
    exact ⟨j, (h.run_iff deterministic).mpr ⟨t, hfollows, hj⟩,
      (isAccepting_toDfa_iff e accepting j).mpr ⟨t, hj, haccepting⟩⟩

end Automaton

end Exploration

end FormalLang
