import FormalLang.Proofs.Conversion.Safety

/-!
# The order in which states are met

The moves of an exploration tell its automaton (`Dfa.ToldBy`): each transition is one of them, and
told from the first to the last they meet the states in the order of their numbers.

**The queue.**  Moves are noted out of one set at a time, when its number is taken from the queue.
A number is put in once, when its set is found, so that no set is explored twice and no move is
noted twice (`Exploration.Orderly`).

**The numbers.**  A set that is found takes the next number, and the move that finds it is noted
then.  So the numbers that have been met are those of the sets that were found, and a move to a
number that has not been met yet is a move to the next one (`Exploration.Orderly.found`).
-/

namespace FormalLang

/-! ## 1. Automata and moves -/

/-- The states that moves meet, one after the other, from state zero on. -/
def Move.met (moves : List Move) : List Nat := 0 :: moves.map Move.target

/-- **Whether moves tell an automaton** that begins with certain members. -/
structure Dfa.ToldBy (dfa : Dfa) (start : Members) (moves : List Move) : Prop where
  start : (dfa.state? 0).map Dfa.State.members = some start
  transition : ∀ m ∈ moves, dfa.transition? m.source m.symbol = some m.target
  members : ∀ m ∈ moves, (dfa.state? m.target).map Dfa.State.members = some m.members
  /-- Every transition is told once. -/
  once : ∀ i c j, dfa.transition? i c = some j →
    moves.countP (fun m => m.source = i ∧ m.symbol = c ∧ m.target = j) = 1
  /-- A move begins where the moves before it have led. -/
  source : ∀ earlier m, earlier ++ [m] <+: moves → m.source ∈ Move.met earlier
  /-- The states are met in the order of their numbers, and no state is left out. -/
  numbered : (Move.met moves).eraseDups = List.range dfa.size

namespace Move

/-- What a move is noted for. -/
def key (m : Move) : Nat × Char := (m.source, m.symbol)

theorem met_append (moves : List Move) (m : Move) :
    met (moves ++ [m]) = met moves ++ [m.target] := by simp [met]

end Move

/-! ## 2. Noting moves -/

namespace Exploration

/-- **What holds of an exploration at any time**, with regard to its order. -/
structure Orderly (e : Exploration) : Prop where
  /-- No set waits twice. -/
  waiting : e.pending.Nodup
  pending_lt : ∀ id ∈ e.pending, id < e.found.length
  /-- What waits has not been explored yet. -/
  unexplored : ∀ m ∈ e.moves, m.source ∉ e.pending
  once : (e.moves.map Move.key).Nodup
  source : ∀ earlier m, earlier ++ [m] <+: e.moves → m.source ∈ Move.met earlier
  numbered : (Move.met e.moves).eraseDups = List.range e.found.length

variable {next : Members → List (Char × Members)} {start : Members} {e e' : Exploration}
  {m : Move} {source : Nat} {c d : Char} {t : Members}

/-- The states that have been met are those of the sets that were found. -/
theorem Orderly.mem_met_iff (h : Orderly e) {id : Nat} :
    id ∈ Move.met e.moves ↔ id < e.found.length := by
  rw [← List.mem_eraseDups, h.numbered, List.mem_range]

theorem Orderly.source_lt (h : Orderly e) (hm : m ∈ e.moves) : m.source < e.found.length := by
  obtain ⟨earlier, later, hmoves⟩ := List.append_of_mem hm
  have hprefix : earlier ++ [m] <+: e.moves := ⟨later, by simp [hmoves]⟩
  refine h.mem_met_iff.mp ?_
  rcases List.mem_cons.mp (h.source earlier m hprefix) with hzero | hmet
  · exact hzero ▸ List.mem_cons_self
  · rw [hmoves, Move.met, List.map_append]
    exact List.mem_cons_of_mem _ (List.mem_append_left _ hmet)

/-- Whether a move out of a set on a character may be noted next. -/
structure Noteworthy (e : Exploration) (source : Nat) (c : Char) : Prop where
  source_lt : source < e.found.length
  explored : source ∉ e.pending
  new : (source, c) ∉ e.moves.map Move.key

theorem Orderly.once_append (h : Orderly e) (hm : Noteworthy e m.source m.symbol) :
    ((e.moves ++ [m]).map Move.key).Nodup := by
  rw [List.map_append, List.map_singleton]
  exact h.once.append (List.nodup_singleton _) (List.disjoint_singleton.mpr hm.new)

theorem Orderly.source_append (h : Orderly e) (hm : Noteworthy e m.source m.symbol) :
    ∀ earlier m', earlier ++ [m'] <+: e.moves ++ [m] → m'.source ∈ Move.met earlier := by
  intro earlier m' hprefix
  rcases List.prefix_concat_iff.mp hprefix with heq | hprefix
  · obtain ⟨rfl, hlast⟩ := List.append_inj' heq rfl
    obtain rfl := List.singleton_inj.mp hlast
    exact h.mem_met_iff.mpr hm.source_lt
  · exact h.source earlier m' hprefix

/-- **A move to a set that was found before** adds no number. -/
theorem Orderly.known (h : Orderly e) (hm : Noteworthy e m.source m.symbol)
    (htarget : m.target < e.found.length) : Orderly { e with moves := e.moves ++ [m] } where
  waiting := h.waiting
  pending_lt := h.pending_lt
  unexplored m' hm' := by
    rcases List.mem_append.mp hm' with hm' | hm'
    · exact h.unexplored m' hm'
    · obtain rfl := List.mem_singleton.mp hm'
      exact hm.explored
  once := h.once_append hm
  source := h.source_append hm
  numbered := by
    have hmet := h.mem_met_iff.mpr htarget
    rw [Move.met_append, List.eraseDups_append, h.numbered]
    simp [List.removeAll, hmet]

/-- **A move to a set that is new** meets the next number. -/
theorem Orderly.found (h : Orderly e) (hm : Noteworthy e m.source m.symbol)
    (htarget : m.target = e.found.length) :
    Orderly ⟨e.found ++ [m.members], e.found.length :: e.pending, e.moves ++ [m]⟩ where
  waiting := List.nodup_cons.mpr ⟨fun hmem => Nat.lt_irrefl _ (h.pending_lt _ hmem), h.waiting⟩
  pending_lt id hid := by
    rw [List.length_append, List.length_singleton]
    rcases List.mem_cons.mp hid with rfl | hid
    · exact Nat.lt_succ_self _
    · exact Nat.lt_succ_of_lt (h.pending_lt id hid)
  unexplored m' hm' := by
    rw [List.mem_cons, not_or]
    rcases List.mem_append.mp hm' with hm' | hm'
    · exact ⟨Nat.ne_of_lt (h.source_lt hm'), h.unexplored m' hm'⟩
    · obtain rfl := List.mem_singleton.mp hm'
      exact ⟨Nat.ne_of_lt hm.source_lt, hm.explored⟩
  once := h.once_append hm
  source := h.source_append hm
  numbered := by
    have hmet : e.found.length ∉ Move.met e.moves :=
      fun hmem => Nat.lt_irrefl _ (h.mem_met_iff.mp hmem)
    rw [Move.met_append, List.eraseDups_append, h.numbered, htarget]
    simp [List.removeAll, hmet, List.range_succ, List.eraseDups_cons]

/-- **Noting a move** keeps the order, whether its target is new or not. -/
theorem Orderly.note (h : Orderly e) (hm : Noteworthy e source c) :
    Orderly (note source e (c, t)) := by
  unfold Exploration.note
  dsimp only
  split
  · rename_i id hid
    obtain ⟨hlt, -⟩ := List.idxOf?_eq_some_iff.mp hid
    exact h.known (m := ⟨source, c, id, t⟩) hm hlt
  · exact h.found (m := ⟨source, c, e.found.length, t⟩) hm rfl

/-- A move on one character leaves those on the others to be noted. -/
theorem Noteworthy.note (hd : Noteworthy e source d) (hne : d ≠ c) :
    Noteworthy (note source e (c, t)) source d := by
  have hnew : ∀ id, (source, d) ∉ (e.moves ++ [(⟨source, c, id, t⟩ : Move)]).map Move.key := by
    intro id hmem
    rw [List.map_append] at hmem
    rcases List.mem_append.mp hmem with hmem | hmem
    · exact hd.new hmem
    · exact hne (Prod.mk.inj (List.mem_singleton.mp hmem)).2
  unfold Exploration.note
  dsimp only
  split
  · exact ⟨hd.source_lt, hd.explored, hnew _⟩
  · refine ⟨?_, ?_, hnew _⟩
    · rw [List.length_append]
      exact Nat.lt_add_right _ hd.source_lt
    · exact List.not_mem_cons_of_ne_of_not_mem (Nat.ne_of_lt hd.source_lt) hd.explored

theorem Orderly.foldl_note : ∀ {arrows : List (Char × Members)} {e : Exploration}, Orderly e →
    (arrows.map Prod.fst).Nodup → (∀ arrow ∈ arrows, Noteworthy e source arrow.1) →
      Orderly (arrows.foldl (Exploration.note source) e)
  | [], e, h, _, _ => h
  | (c, t) :: arrows, e, h, hnodup, hall => by
    obtain ⟨hc, hrest⟩ := List.nodup_cons.mp hnodup
    rw [List.foldl_cons]
    refine foldl_note (h.note (hall _ List.mem_cons_self)) hrest fun arrow harrow => ?_
    refine (hall arrow (List.mem_cons_of_mem _ harrow)).note ?_
    rintro heq
    exact hc (List.mem_map.mpr ⟨arrow, harrow, heq⟩)

/-! ## 3. Rounds -/

/-- **A round keeps the order**, if a set has one move at most for each character. -/
theorem Orderly.step (single : ∀ s, ((next s).map Prod.fst).Nodup) (h : Orderly e)
    (hs : Exploration.step next e = some e') : Orderly e' := by
  unfold Exploration.step at hs
  split at hs
  · contradiction
  · rename_i id rest hpending
    have hwaiting := h.waiting
    rw [hpending] at hwaiting
    obtain ⟨hid, hrest⟩ := List.nodup_cons.mp hwaiting
    have hsub : ∀ i ∈ rest, i ∈ e.pending :=
      fun i hi => hpending ▸ List.mem_cons_of_mem _ hi
    have htaken : Orderly { e with pending := rest } :=
      ⟨hrest, fun i hi => h.pending_lt i (hsub i hi),
        fun m hm hmem => h.unexplored m hm (hsub _ hmem), h.once, h.source, h.numbered⟩
    split at hs
    · exact Option.some.inj hs ▸ htaken
    · rename_i members _
      obtain rfl := Option.some.inj hs
      have hpending_id : id ∈ e.pending := hpending ▸ List.mem_cons_self
      refine htaken.foldl_note (single members) fun arrow _ =>
        ⟨h.pending_lt id hpending_id, hid, fun hmem => ?_⟩
      obtain ⟨m, hm, hkey⟩ := List.mem_map.mp hmem
      have hsource : m.source = id := (Prod.mk.inj hkey).1
      exact h.unexplored m hm (hsource ▸ hpending_id)

theorem orderly_begin (start : Members) : Orderly (begin start) where
  waiting := List.nodup_singleton 0
  pending_lt id hid := List.mem_singleton.mp hid ▸ Nat.one_pos
  unexplored := nofun
  once := List.nodup_nil
  source earlier m hprefix := by
    have := List.prefix_nil.mp hprefix
    simp at this
  numbered := rfl

/-- **An exploration keeps the order to its end.** -/
theorem orderly_run (single : ∀ s, ((next s).map Prod.fst).Nodup) (n : Nat) (start : Members) :
    Orderly (run next n start) :=
  iterate_invariant (fun _ _ h hs => h.step single hs) _ _ (orderly_begin start)

/-! ## 4. The automaton -/

/-- **The moves of a finished exploration tell its automaton.** -/
theorem Explored.toldBy (h : Explored next start e) (orderly : Orderly e)
    (deterministic : ∀ s c t t', (c, t) ∈ next s → (c, t') ∈ next s → t = t')
    (accepting : Members → Bool) : (e.toDfa accepting).ToldBy start e.moves where
  start := by
    rw [state?_toDfa, h.begins]
    rfl
  transition m hm := h.transition?_of_mem_moves deterministic hm
  members m hm := by
    obtain ⟨-, -, -, htarget⟩ := (h.moves m).mp hm
    rw [state?_toDfa, htarget]
    rfl
  once i c j htransition := by
    obtain ⟨s, t, hs, harrow, ht⟩ := (h.transition?_iff deterministic).mp htransition
    have hm : (⟨i, c, j, t⟩ : Move) ∈ e.moves := (h.moves _).mpr ⟨s, hs, harrow, ht⟩
    have hcount : (e.moves.map Move.key).count (i, c) = 1 :=
      List.count_eq_one_of_mem orderly.once (List.mem_map_of_mem hm)
    rw [List.count, List.countP_map] at hcount
    refine (List.countP_congr fun m' hm' => ?_).trans hcount
    simp only [decide_eq_true_eq, Function.comp_apply, beq_iff_eq, Move.key, Prod.mk.injEq]
    refine ⟨fun ⟨hsource, hsymbol, _⟩ => ⟨hsource, hsymbol⟩, fun ⟨hsource, hsymbol⟩ => ?_⟩
    exact ⟨hsource, hsymbol, h.target_unique deterministic hm' hm hsource hsymbol⟩
  source := orderly.source
  numbered := by rw [size_toDfa, orderly.numbered]

end Exploration

end FormalLang
