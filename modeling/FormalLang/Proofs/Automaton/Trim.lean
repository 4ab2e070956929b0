import FormalLang.Proofs.Automaton.Quotient
import FormalLang.Proofs.Conversion.Safety

/-!
# Trim automata

A deterministic automaton is trim if no state is there in vain: each is reached by a word, from each
a word leads to an accepting state, and no two have the same members (`Dfa.IsTrim`).

**What an exploration gives.**  Its states are the sets that were found, each once, and a set is
found only if moves lead to it.  What is left is to show that moves lead from each of them to a set
with the accept state (`Exploration.Explored.isTrim_toDfa`).

**What Thompson's construction adds.**  From every state of a fragment a path leads to the exit of
the fragment (`Regex.live_fragment`): the operators put the entry of an operand behind a new entry,
and a new exit behind the exit of each operand.  A set that was found has a member and no edge
without input leaves it, so that moves follow the path from that member (`Regex.isTrim_toDfa`).
-/

namespace FormalLang

/-! ## 1. Deterministic automata -/

/-- **Whether an automaton is trim**, with the states accepting that have a certain member. -/
structure Dfa.IsTrim (dfa : Dfa) (mark : Nat) : Prop extends dfa.WellFormed where
  start_eq : dfa.start = 0
  /-- No two states have the same members. -/
  distinct : (dfa.states.map Dfa.State.members).Nodup
  nonempty : ∀ s ∈ dfa.states, ∃ p, p ∈ s.members
  reached : ∀ i < dfa.size, ∃ w, dfa.run w = some i
  /-- There is no dead state. -/
  live : ∀ i < dfa.size, ∃ w j, dfa.runFrom (some i) w = some j ∧ dfa.isAccepting j = true
  accepting : ∀ i, dfa.isAccepting i = true ↔ ∃ s, dfa.state? i = some s ∧ mark ∈ s.members

namespace Exploration

variable {next : Members → List (Char × Members)} {start : Members} {e : Exploration}

/-- The members of the states are the sets that were found. -/
theorem map_members_toDfa (e : Exploration) (accepting : Members → Bool) :
    (e.toDfa accepting).states.map Dfa.State.members = e.found :=
  List.ext_getElem (by simp [toDfa]) fun i _ _ => by simp [toDfa]

/-- **A finished exploration has a trim automaton**, if a member leads from every set that was found
to a set with the mark. -/
theorem Explored.isTrim_toDfa (h : Explored next start e)
    (deterministic : ∀ s c t t', (c, t) ∈ next s → (c, t') ∈ next s → t = t') {mark : Nat}
    (reached : ∀ s ∈ e.found, ∃ w, Follows next start w s)
    (nonempty : ∀ s ∈ e.found, ∃ p, p ∈ s)
    (live : ∀ s ∈ e.found, ∃ w t, Follows next s w t ∧ mark ∈ t) :
    (e.toDfa fun members => decide (mark ∈ members)).IsTrim mark where
  toWellFormed := h.wellFormed_toDfa deterministic
  start_eq := rfl
  distinct := by
    rw [map_members_toDfa]
    exact h.nodup
  nonempty s hs := by
    refine nonempty s.members ?_
    rw [← map_members_toDfa e fun members => decide (mark ∈ members)]
    exact List.mem_map_of_mem hs
  reached i hi := by
    rw [size_toDfa] at hi
    obtain ⟨w, hw⟩ := reached e.found[i] (List.getElem_mem hi)
    exact ⟨w, (h.run_iff deterministic).mpr ⟨_, hw, List.getElem?_eq_getElem hi⟩⟩
  live i hi := by
    rw [size_toDfa] at hi
    obtain ⟨w, t, hfollows, hmark⟩ := live e.found[i] (List.getElem_mem hi)
    obtain ⟨j, hj⟩ := List.getElem?_of_mem (Follows.mem_found h hfollows (List.getElem_mem hi))
    refine ⟨w, j, ?_, ?_⟩
    · exact (h.runFrom_iff deterministic (List.getElem?_eq_getElem hi)).mpr ⟨t, hfollows, hj⟩
    · exact (isAccepting_toDfa_iff e _ j).mpr ⟨t, hj, decide_eq_true hmark⟩
  accepting i := by
    rw [isAccepting_toDfa_iff, state?_toDfa]
    simp

end Exploration

/-! ## 2. Fragments -/

namespace Fragment

/-- **Whether a path leads from every state of a fragment to its exit.** -/
def Live (free : Nat) (f : Fragment) : Prop :=
  ∀ p, f.Owns free p → ∃ w, Connects f.edges p w f.accept

variable {free : Nat} {f l r whole : Fragment} {targets : List Nat}

theorem live_ofLeaf (s : Leaf) (free : Nat) : Live free (ofLeaf s free) := by
  rintro p ⟨hle, hlt⟩
  have hp : p = free ∨ p = free + 1 := by
    simp only [ofLeaf] at hlt
    omega
  rcases hp with rfl | rfl
  · exact ⟨_, .cons List.mem_cons_self (.refl _)⟩
  · exact ⟨[], .refl _⟩

/-- A path to the exit of a part, and an edge without input from there. -/
theorem Live.exists_connects (hf : Live free f) (part : whole.HasPart free f targets) {p q : Nat}
    (hp : f.Owns free p) (hq : q ∈ targets) : ∃ w, Connects whole.edges p w q := by
  obtain ⟨w, hw⟩ := hf p hp
  exact ⟨w ++ [], (part.connects hw).trans (.skip (part.ways q hq) (.refl q))⟩

theorem Live.concat (hl : Tight free l) (hr : Tight l.next r) (hl' : Live free l)
    (hr' : Live l.next r) : Live free (l.concat r) := by
  have hright := hl.concat_right hr
  rintro p ⟨hle, hlt⟩
  rcases Nat.lt_or_ge p l.next with hp | hp
  · -- past the exit of the left operand, from the entry of the right one
    obtain ⟨u, hu⟩ := hl'.exists_connects (hl.concat_left hr) ⟨hle, hp⟩ List.mem_cons_self
    obtain ⟨v, hv⟩ := hr' r.start hr.start
    exact ⟨u ++ v, hu.trans (hright.connects hv)⟩
  · obtain ⟨w, hw⟩ := hr' p ⟨hp, hlt⟩
    exact ⟨w, hright.connects hw⟩

theorem Live.union (hl : Tight free l) (hr : Tight l.next r) (hl' : Live free l)
    (hr' : Live l.next r) : Live free (l.union r) := by
  rintro p ⟨hle, hlt⟩
  have hp : p < l.next ∨ l.next ≤ p ∧ p < r.next ∨ p = r.next ∨ p = r.next + 1 := by
    simp only [Fragment.union] at hlt
    omega
  rcases hp with hp | hp | rfl | rfl
  · exact hl'.exists_connects (hl.union_left hr) ⟨hle, hp⟩ List.mem_cons_self
  · exact hr'.exists_connects (hl.union_right hr) hp List.mem_cons_self
  · -- the new entry leads to that of the left operand
    obtain ⟨w, hw⟩ := hl'.exists_connects (hl.union_left hr) hl.start List.mem_cons_self
    exact ⟨w, .skip (mem_edges_union.mpr (by simp)) hw⟩
  · exact ⟨[], .refl _⟩

theorem Live.star (hf : Tight free f) (hf' : Live free f) : Live free f.star := by
  have hskip : ⟨f.next, .epsilon, f.next + 1⟩ ∈ f.star.edges := mem_edges_star.mpr (by simp)
  rintro p ⟨hle, hlt⟩
  have hp : p < f.next ∨ p = f.next ∨ p = f.next + 1 := by
    simp only [Fragment.star] at hlt
    omega
  rcases hp with hp | rfl | rfl
  · exact hf'.exists_connects hf.star_operand ⟨hle, hp⟩
      (List.mem_cons_of_mem _ List.mem_cons_self)
  · exact ⟨[], .skip hskip (.refl _)⟩
  · exact ⟨[], .refl _⟩

end Fragment

/-- **From every state of a fragment a path leads to its exit.** -/
theorem Regex.live_fragment : ∀ (e : Regex) (free : Nat), (e.fragment free).Live free
  | .leaf s, free => Fragment.live_ofLeaf s free
  | .concat l r, free => .concat (l.tight_fragment free) (r.tight_fragment _)
    (l.live_fragment free) (r.live_fragment _)
  | .union l r, free => .union (l.tight_fragment free) (r.tight_fragment _)
    (l.live_fragment free) (r.live_fragment _)
  | .star e, free => .star (e.tight_fragment free) (e.live_fragment free)

/-! ## 3. Subset automata -/

namespace Nfa

variable {nfa : Nfa} {s t : Members} {w : List Char}

/-- Moves lead from saturated sets to saturated sets. -/
theorem WellFormed.saturated_of_follows (wf : nfa.WellFormed)
    (h : Follows nfa.subsetMoves s w t) : nfa.Saturated s → nfa.Saturated t := by
  induction h with
  | nil s => exact fun hs => hs
  | cons move _ ih => exact fun _ => ih (wf.saturated_of_mem_subsetMoves move)

/-- The start set is not empty. -/
theorem WellFormed.exists_mem_startMembers (wf : nfa.WellFormed) :
    ∃ p, p ∈ nfa.startMembers := by
  obtain ⟨p, hp, -⟩ := (mem_startMembers_path_iff wf).mpr (.refl nfa.start)
  exact ⟨p, hp⟩

/-- **The subset automaton is trim**, if a path leads from every state to the accept state. -/
theorem Built.isTrim_toDfa (built : nfa.Built)
    (live : ∀ p < nfa.size, ∃ w, nfa.Path p w nfa.accept) : nfa.toDfa.IsTrim nfa.accept := by
  have wf := built.wellFormed
  have hfound : ∀ s ∈ nfa.exploration.found, ∃ w, Follows nfa.subsetMoves nfa.startMembers w s :=
    fun s hs => Exploration.exists_follows_of_mem_found hs
  have hnonempty : ∀ s ∈ nfa.exploration.found, ∃ p, p ∈ s := by
    intro s hs
    obtain ⟨w, hw⟩ := hfound s hs
    exact built.nonempty_of_follows hw wf.exists_mem_startMembers
  refine wf.explored.isTrim_toDfa subsetMoves_deterministic hfound hnonempty fun s hs => ?_
  obtain ⟨u, hu⟩ := hfound s hs
  have saturated := wf.saturated_of_follows hu wf.saturated_startMembers
  obtain ⟨p, hp⟩ := hnonempty s hs
  obtain ⟨w, hpath⟩ := live p (saturated.exist p hp)
  obtain ⟨t, ht⟩ := built.exists_follows saturated ⟨p, hp, hpath⟩
  exact ⟨w, t, ht, (mem_of_follows wf ht saturated _).mpr ⟨p, hp, hpath⟩⟩

end Nfa

/-- **The subset automaton of Thompson's automaton is trim.** -/
theorem Regex.isTrim_toDfa (e : Regex) : e.toNfa.toDfa.IsTrim e.toNfa.accept := by
  have hsources : ∀ edge ∈ (e.fragment 0).edges, edge.source < (e.fragment 0).next :=
    fun edge hedge => ((e.tight_fragment 0).edges edge hedge).1.2
  have hsize : e.toNfa.size = (e.fragment 0).next := by
    simp [Regex.toNfa, Fragment.toNfa, Nfa.size, Nfa.ofEdges]
  refine e.built_toNfa.isTrim_toDfa fun p hp => ?_
  obtain ⟨w, hw⟩ := e.live_fragment 0 p ⟨Nat.zero_le p, hsize ▸ hp⟩
  exact ⟨w, (Nfa.path_ofEdges_iff hsources).mpr hw⟩

end FormalLang
