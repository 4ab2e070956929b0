import FormalLang.Automaton.Nfa
import FormalLang.Proofs.Ordered.Growth

/-!
# The epsilon closure is what edges without input reach

If the targets of all edges exist, the closure of existing states holds exactly the states that
paths without input lead to (`Nfa.mem_closure_iff`).

* **No others.**  A state is noted only as the target of an edge without input out of a state that
  was noted before (`Search.Sound.reached`).
* **All of them.**  The edges out of a state are followed before it leaves the queue for good, so
  that at the end no edge without input leaves the set (`Search.Sound.settled`).

**Why the rounds suffice.**  A round takes a state from the queue and puts in those that it finds,
and each existing state is found once.
-/

namespace FormalLang.Nfa

variable {nfa : Nfa}

/-! ## 1. Paths -/

namespace Path

variable {p q r : Nat} {u v w : List Char}

theorem trans (h : nfa.Path p u q) (h' : nfa.Path q v r) : nfa.Path p (u ++ v) r := by
  induction h with
  | refl p => exact h'
  | cons edge _ ih =>
    rw [List.append_assoc]
    exact .cons edge (ih h')

/-- An edge without input in front of a path. -/
theorem skip (edge : nfa.HasEdge p .epsilon q) (h : nfa.Path q w r) : nfa.Path p w r :=
  .cons edge h

/-- An edge with a character in front of a path. -/
theorem read {c : Char} (edge : nfa.HasEdge p (.char c) q) (h : nfa.Path q w r) :
    nfa.Path p (c :: w) r :=
  .cons edge h

/-- A path without input stays in a set that no edge without input leaves. -/
theorem stay {own : Nat → Prop} (hown : ∀ p q, own p → nfa.HasEdge p .epsilon q → own q)
    (h : nfa.Path p w r) : w = [] → own p → own r := by
  induction h with
  | refl p => exact fun _ hp => hp
  | @cons p q r label w edge _ ih =>
    intro hw hp
    cases label with
    | epsilon => exact ih hw (hown p q hp edge)
    | char c => contradiction

/-- A path that reads a character reads it on some edge. -/
theorem exists_edge {c : Char} (h : nfa.Path p w r) : ∀ {v : List Char}, w = c :: v →
    ∃ q q', nfa.Path p [] q ∧ nfa.HasEdge q (.char c) q' ∧ nfa.Path q' v r := by
  induction h with
  | refl p => nofun
  | @cons p q r label w edge rest ih =>
    intro v hv
    cases label with
    | epsilon =>
      obtain ⟨q', q'', hnil, hedge, hrest⟩ := ih hv
      exact ⟨q', q'', hnil.skip edge, hedge, hrest⟩
    | char d =>
      obtain ⟨rfl, rfl⟩ := List.cons.inj hv
      exact ⟨p, q, .refl p, edge, rest⟩

/-- Paths from existing states lead to existing states. -/
theorem lt_size (targets_lt : ∀ p label q, nfa.HasEdge p label q → q < nfa.size)
    (h : nfa.Path p w r) : p < nfa.size → r < nfa.size := by
  induction h with
  | refl p => exact fun hp => hp
  | cons edge _ ih => exact fun _ => ih (targets_lt _ _ _ edge)

end Path

/-! ## 2. Noting states -/

namespace Search

/-- What happens when states are noted: those that are new wait for their turn. -/
structure Noted (ids : List Nat) (s s' : Search) : Prop where
  seen : ∀ q, q ∈ s'.seen ↔ q ∈ s.seen ∨ q ∈ ids
  waits : ∀ q ∈ s.pending, q ∈ s'.pending
  waiting : ∀ q ∈ s'.pending, q ∈ s.pending ∨ q ∈ ids
  new : ∀ q ∈ s'.seen, q ∈ s.seen ∨ q ∈ s'.pending
  count : s'.pending.length + s.seen.size = s.pending.length + s'.seen.size

theorem Noted.refl (s : Search) : Noted [] s s where
  seen := by simp
  waits _ h := h
  waiting _ h := .inl h
  new _ h := .inl h
  count := rfl

theorem Noted.trans {ids ids' : List Nat} {s s' s'' : Search} (h : Noted ids s s')
    (h' : Noted ids' s' s'') : Noted (ids ++ ids') s s'' where
  seen q := by rw [h'.seen, h.seen, List.mem_append, or_assoc]
  waits q hq := h'.waits q (h.waits q hq)
  waiting q hq := by
    rcases h'.waiting q hq with hq | hq
    · rcases h.waiting q hq with hq | hq
      · exact .inl hq
      · exact .inr (List.mem_append_left _ hq)
    · exact .inr (List.mem_append_right _ hq)
  new q hq := by
    rcases h'.new q hq with hq | hq
    · rcases h.new q hq with hq | hq
      · exact .inl hq
      · exact .inr (h'.waits q hq)
    · exact .inr hq
  count := by
    have := h.count
    have := h'.count
    omega

theorem noted_note (s : Search) (id : Nat) : Noted [id] s (note s id) := by
  unfold note
  split
  · rename_i hseen
    refine ⟨fun q => ?_, fun _ h => h, fun _ h => .inl h, fun _ h => .inl h, rfl⟩
    rw [List.mem_singleton]
    constructor
    · exact .inl
    · rintro (hq | rfl)
      · exact hq
      · exact hseen
  · rename_i hseen
    refine ⟨fun q => ?_, fun q hq => List.mem_cons_of_mem _ hq, fun q hq => ?_, fun q hq => ?_, ?_⟩
    · rw [OrderedSet.mem_insert, List.mem_singleton, or_comm]
    · rcases List.mem_cons.mp hq with rfl | hq
      · exact .inr List.mem_cons_self
      · exact .inl hq
    · rcases OrderedSet.mem_insert.mp hq with rfl | hq
      · exact .inr List.mem_cons_self
      · exact .inl hq
    · have hsize := OrderedSet.size_insert hseen
      rw [List.length_cons]
      dsimp only
      omega

theorem noted_foldl : ∀ (ids : List Nat) (s : Search), Noted ids s (ids.foldl note s)
  | [], s => .refl s
  | id :: ids, s => (noted_note s id).trans (noted_foldl ids _)

/-! ## 3. The invariant -/

/-- What holds of a search at any time. -/
structure Sound (nfa : Nfa) (seeds : List Nat) (s : Search) : Prop where
  begun : ∀ p ∈ seeds, p ∈ s.seen
  exist : ∀ p ∈ s.seen, p < nfa.size
  waiting : ∀ p ∈ s.pending, p ∈ s.seen
  reached : ∀ q ∈ s.seen, ∃ p ∈ seeds, nfa.Path p [] q
  settled : ∀ p ∈ s.seen, p ∉ s.pending → ∀ q, nfa.HasEdge p .epsilon q → q ∈ s.seen

/-- What a search can still cost: the queue, and all states that are not found yet. -/
def weight (nfa : Nfa) (s : Search) : Nat := s.pending.length + (nfa.size - s.seen.size)

variable {seeds : List Nat} {s s' : Search}

theorem Sound.size_le (h : Sound nfa seeds s) : s.seen.size ≤ nfa.size := by
  have hle := OrderedSet.size_le_length fun p hp => List.mem_range.mpr (h.exist p hp)
  rwa [List.length_range] at hle

/-- **A round keeps the invariant and lowers the weight.** -/
theorem Sound.step (targets_lt : ∀ p label q, nfa.HasEdge p label q → q < nfa.size)
    (h : Sound nfa seeds s) (hs : Search.step nfa s = some s') :
    Sound nfa seeds s' ∧ weight nfa s' < weight nfa s := by
  unfold Search.step at hs
  split at hs
  · contradiction
  · rename_i id rest hpending
    obtain rfl := Option.some.inj hs
    have hid : id ∈ s.seen := h.waiting id (hpending ▸ List.mem_cons_self)
    have hnoted := noted_foldl (nfa.targets id .epsilon) ⟨s.seen, rest⟩
    generalize (nfa.targets id .epsilon).foldl note ⟨s.seen, rest⟩ = s' at hnoted ⊢
    have hsound : Sound nfa seeds s' := by
      refine ⟨fun p hp => (hnoted.seen p).mpr (.inl (h.begun p hp)), fun p hp => ?_, fun p hp => ?_,
        fun q hq => ?_, fun p hp hnot q hedge => ?_⟩
      · rcases (hnoted.seen p).mp hp with hp | hedge
        · exact h.exist p hp
        · exact targets_lt id .epsilon p hedge
      · rcases hnoted.waiting p hp with hp | hedge
        · exact (hnoted.seen p).mpr (.inl (h.waiting p (hpending ▸ List.mem_cons_of_mem _ hp)))
        · exact (hnoted.seen p).mpr (.inr hedge)
      · rcases (hnoted.seen q).mp hq with hq | hedge
        · exact h.reached q hq
        · obtain ⟨p, hp, hpath⟩ := h.reached id hid
          exact ⟨p, hp, hpath.trans (.skip hedge (.refl q))⟩
      · rcases hnoted.new p hp with hp | hwaits
        · by_cases heq : p = id
          · -- the state whose edges have just been followed
            subst heq
            exact (hnoted.seen q).mpr (.inr hedge)
          · have hnot' : p ∉ s.pending := by
              rw [hpending, List.mem_cons, not_or]
              exact ⟨heq, fun hmem => hnot (hnoted.waits p hmem)⟩
            exact (hnoted.seen q).mpr (.inl (h.settled p hp hnot' q hedge))
        · exact absurd hwaits hnot
    refine ⟨hsound, ?_⟩
    have hsize := hsound.size_le
    have hcount := hnoted.count
    simp only [weight, hpending, List.length_cons]
    dsimp only at hcount
    omega

theorem sound_start (hseeds : ∀ p ∈ seeds, p < nfa.size) :
    Sound nfa seeds ⟨OrderedSet.ofList seeds, seeds.reverse⟩ where
  begun _ hp := OrderedSet.mem_ofList.mpr hp
  exist p hp := hseeds p (OrderedSet.mem_ofList.mp hp)
  waiting _ hp := OrderedSet.mem_ofList.mpr (List.mem_reverse.mp hp)
  reached q hq := ⟨q, OrderedSet.mem_ofList.mp hq, .refl q⟩
  settled _ hp hnot := absurd (List.mem_reverse.mpr (OrderedSet.mem_ofList.mp hp)) hnot

theorem pending_eq_nil (h : Search.step nfa s = none) : s.pending = [] := by
  unfold Search.step at h
  split at h
  · assumption
  · contradiction

/-- **The search of a closure ends**, in a state that keeps the invariant. -/
theorem sound_last (targets_lt : ∀ p label q, nfa.HasEdge p label q → q < nfa.size)
    (hseeds : ∀ p ∈ seeds, p < nfa.size) {s : Search}
    (hs : s = iterate (Search.step nfa) (seeds.length + nfa.size + 1)
      ⟨OrderedSet.ofList seeds, seeds.reverse⟩) :
    Sound nfa seeds s ∧ Search.step nfa s = none := by
  subst hs
  have hstart := sound_start hseeds
  have hweight : weight nfa ⟨OrderedSet.ofList seeds, seeds.reverse⟩ <
      seeds.length + nfa.size + 1 := by
    rw [weight, List.length_reverse]
    omega
  exact ⟨iterate_invariant (fun s s' h hs => (Sound.step targets_lt h hs).1) _ _ hstart,
    iterate_done (weight nfa) (fun s s' h hs => Sound.step targets_lt h hs) _ _ hstart hweight⟩

end Search

/-! ## 4. The closure -/

/-- **The closure of existing states** holds what paths without input lead to. -/
theorem mem_closure_iff (targets_lt : ∀ p label q, nfa.HasEdge p label q → q < nfa.size)
    {seeds : List Nat} (hseeds : ∀ p ∈ seeds, p < nfa.size) {q : Nat} :
    q ∈ nfa.closure seeds ↔ ∃ p ∈ seeds, nfa.Path p [] q := by
  obtain ⟨hlast, hdone⟩ := Search.sound_last targets_lt hseeds rfl
  constructor
  · exact hlast.reached q
  · have hsettled : ∀ p q, p ∈ nfa.closure seeds → nfa.HasEdge p .epsilon q →
        q ∈ nfa.closure seeds := by
      intro p q hp hedge
      refine hlast.settled p hp ?_ q hedge
      rw [Search.pending_eq_nil hdone]
      exact List.not_mem_nil
    rintro ⟨p, hp, hpath⟩
    exact hpath.stay hsettled rfl (hlast.begun p hp)

end FormalLang.Nfa
