import FormalLang.Automaton.Builder
import FormalLang.Proofs.Automaton.Thompson

/-!
# What a builder can build

An automaton that a builder returns is in order (`Built.wellFormed`), and it has no label without
an edge (`Built.exists_edge_of_mem_keys`).  Conversely, whatever states and edges there are, a
builder can put them together (`built_ofEdges`); so it builds Thompson's automata
(`Regex.built_toNfa`).

**The invariant** says nothing about targets, for an edge may be added before its target
(`NfaBuilder.Tidy`); that they exist is what `build` finds out.
-/

namespace FormalLang

namespace NfaBuilder

/-! ## 1. Builders -/

/-- The builders that adding states and edges leads to. -/
inductive Reachable : NfaBuilder → Prop where
  | empty : Reachable .empty
  | addState {b : NfaBuilder} (h : Reachable b) : Reachable b.addState
  | addEdge {b b' : NfaBuilder} {e : Edge} (h : Reachable b) (added : b.addEdge e = .ok b') :
      Reachable b'

/-- What holds of a builder at any time: states carry their own numbers, and a label stands for at
least one edge. -/
structure Tidy (b : NfaBuilder) : Prop where
  ids : b.ids = List.range b.nextId
  nonempty : ∀ s ∈ b.states, ∀ label ids, s.transitions.find? label = some ids → ids ≠ []

theorem Tidy.addState {b : NfaBuilder} (h : b.Tidy) : b.addState.Tidy where
  ids := by
    have hids := h.ids
    simp only [NfaBuilder.ids, nextId] at hids
    simp [NfaBuilder.ids, nextId, NfaBuilder.addState, hids, List.range_succ]
  nonempty s hs label ids hids := by
    rcases List.mem_append.mp hs with hs | hs
    · exact h.nonempty s hs label ids hids
    · obtain rfl := List.mem_singleton.mp hs
      contradiction

/-- Adding an edge changes the transitions of its source. -/
theorem addEdge_eq_ok {b b' : NfaBuilder} {e : Edge} (h : b.addEdge e = .ok b') :
    ∃ s, b.states[e.source]? = some s ∧
      b'.states = b.states.set e.source ⟨s.id, Nfa.addEdge s.transitions e⟩ := by
  unfold NfaBuilder.addEdge at h
  split at h
  · contradiction
  · rename_i s hs
    obtain rfl := Except.ok.inj h
    exact ⟨s, hs, rfl⟩

theorem Tidy.addEdge {b b' : NfaBuilder} {e : Edge} (h : b.Tidy) (added : b.addEdge e = .ok b') :
    b'.Tidy := by
  obtain ⟨s, hs, hstates⟩ := addEdge_eq_ok added
  refine ⟨?_, fun s' hs' label ids hids => ?_⟩
  · -- the source keeps its number
    have hsame : (b.states.map Nfa.State.id).set e.source s.id = b.states.map Nfa.State.id := by
      obtain ⟨hlt, rfl⟩ := List.getElem?_eq_some_iff.mp hs
      rw [← List.map_set, List.set_getElem_self]
    have hids := h.ids
    simp only [NfaBuilder.ids, nextId] at hids ⊢
    rw [hstates, List.map_set, List.length_set, hsame, hids]
  · rw [hstates] at hs'
    rcases List.mem_or_eq_of_mem_set hs' with hs' | rfl
    · exact h.nonempty s' hs' label ids hids
    · rw [Nfa.addEdge, OrderedMap.find?_alter] at hids
      split at hids
      · obtain rfl := Option.some.inj hids
        exact List.append_ne_nil_of_right_ne_nil _ (List.cons_ne_nil _ _)
      · exact h.nonempty s (List.mem_of_getElem? hs) label ids hids

theorem Reachable.tidy {b : NfaBuilder} (h : b.Reachable) : b.Tidy := by
  induction h with
  | empty => exact ⟨rfl, nofun⟩
  | addState _ ih => exact ih.addState
  | addEdge _ added ih => exact ih.addEdge added

theorem mem_targets_iff {b : NfaBuilder} {q : Nat} :
    q ∈ b.targets ↔ ∃ s ∈ b.states, ∃ label, q ∈ s.targets label := by
  simp only [targets, List.mem_flatMap, List.mem_flatten, OrderedMap.values, List.mem_map]
  refine exists_congr fun s => and_congr_right fun _ => ?_
  constructor
  · rintro ⟨_, ⟨⟨label, ids⟩, hids, rfl⟩, hq⟩
    refine ⟨label, ?_⟩
    rw [Nfa.State.targets, OrderedMap.mem_toList.mp hids]
    exact hq
  · rintro ⟨label, hq⟩
    rw [Nfa.State.targets] at hq
    cases hids : s.transitions.find? label with
    | none =>
      rw [hids] at hq
      contradiction
    | some ids =>
      rw [hids] at hq
      exact ⟨ids, ⟨(label, ids), OrderedMap.mem_toList.mpr hids, rfl⟩, hq⟩

/-- What `build` has found out of an automaton that it returns. -/
theorem build_eq_ok {b : NfaBuilder} {start accept : Nat} {nfa : Nfa}
    (h : b.build start accept = .ok nfa) :
    nfa = ⟨start, accept, b.states⟩ ∧ (∀ id ∈ b.targets, id ∈ b.ids) ∧ start ∈ b.ids ∧
      accept ∈ b.ids := by
  unfold build at h
  split at h
  · rename_i htargets
    split at h
    · rename_i hends
      exact ⟨(Except.ok.inj h).symm, htargets, hends⟩
    · contradiction
  · contradiction

end NfaBuilder

/-! ## 2. Automata -/

namespace Nfa

/-- **The automata that a builder returns**, after any states and edges. -/
inductive Built : Nfa → Prop where
  | build {b : NfaBuilder} {start accept : Nat} {nfa : Nfa} (reachable : b.Reachable)
      (h : b.build start accept = .ok nfa) : Built nfa

variable {nfa : Nfa}

theorem hasEdge_iff {p q : Nat} {label : Label} : nfa.HasEdge p label q ↔
    ∃ s, nfa.states[p]? = some s ∧ q ∈ s.targets label := by
  unfold HasEdge targets
  cases nfa.states[p]? with
  | none => simp
  | some s => simp

/-- **What a builder returns is in order.** -/
theorem Built.wellFormed (h : nfa.Built) : nfa.WellFormed := by
  obtain ⟨reachable, hbuild⟩ := h
  obtain ⟨rfl, htargets, hstart, haccept⟩ := NfaBuilder.build_eq_ok hbuild
  rename_i b start accept
  have hids : b.ids = List.range b.states.length := reachable.tidy.ids
  rw [hids, List.mem_range] at hstart haccept
  refine ⟨hids, hstart, haccept, fun p label q hedge => ?_⟩
  obtain ⟨s, hs, hq⟩ := hasEdge_iff.mp hedge
  have hlt := htargets q (NfaBuilder.mem_targets_iff.mpr ⟨s, List.mem_of_getElem? hs, label, hq⟩)
  rwa [hids, List.mem_range] at hlt

/-- A label that is listed stands on an edge. -/
theorem Built.exists_edge_of_mem_keys (h : nfa.Built) {p : Nat} {s : State} {label : Label}
    (hs : nfa.states[p]? = some s) (hlabel : label ∈ s.transitions.keys) :
    ∃ q, nfa.HasEdge p label q := by
  obtain ⟨reachable, hbuild⟩ := h
  obtain ⟨rfl, -⟩ := NfaBuilder.build_eq_ok hbuild
  obtain ⟨ids, hids⟩ := Option.isSome_iff_exists.mp (OrderedMap.mem_keys.mp hlabel)
  have hne := reachable.tidy.nonempty s (List.mem_of_getElem? hs) label ids hids
  obtain ⟨q, hq⟩ := List.exists_mem_of_ne_nil ids hne
  refine ⟨q, hasEdge_iff.mpr ⟨s, hs, ?_⟩⟩
  rw [State.targets, hids]
  exact hq

/-- A state with one more edge. -/
theorem stateOfEdges_append (edges : List Edge) (e : Edge) (id : Nat) :
    stateOfEdges (edges ++ [e]) id = if e.source = id then
      ⟨id, addEdge (stateOfEdges edges id).transitions e⟩ else stateOfEdges edges id := by
  unfold stateOfEdges
  rw [List.filter_append]
  split
  · rename_i hsource
    simp [hsource]
  · rename_i hsource
    simp [hsource]

end Nfa

/-! ## 3. All states and edges -/

namespace NfaBuilder

/-- Adds some edges, one after the other. -/
def addEdges (b : NfaBuilder) (edges : List Edge) : Except Refusal NfaBuilder :=
  edges.foldlM addEdge b

theorem Reachable.addEdges : ∀ {edges : List Edge} {b b' : NfaBuilder}, b.Reachable →
    b.addEdges edges = .ok b' → b'.Reachable
  | [], _, _, reachable, h => Except.ok.inj h ▸ reachable
  | e :: edges, b, b', reachable, h => by
    rw [NfaBuilder.addEdges, List.foldlM_cons] at h
    cases hadded : b.addEdge e with
    | error r =>
      rw [hadded] at h
      contradiction
    | ok between =>
      rw [hadded] at h
      exact (reachable.addEdge hadded).addEdges h

/-- A builder with so many states and these edges. -/
def ofEdges (size : Nat) (edges : List Edge) : NfaBuilder :=
  ⟨(List.range size).map (Nfa.stateOfEdges edges)⟩

variable {size : Nat}

theorem nextId_ofEdges (size : Nat) (edges : List Edge) : (ofEdges size edges).nextId = size := by
  simp [nextId, ofEdges]

/-- The next state has no edges yet. -/
theorem addState_ofEdges {edges : List Edge} (hsources : ∀ e ∈ edges, e.source < size) :
    (ofEdges size edges).addState = ofEdges (size + 1) edges := by
  have hnone : (edges.filter fun e => e.source = size) = [] := by
    rw [List.filter_eq_nil_iff]
    intro e he
    exact fun hsource => Nat.lt_irrefl _ (of_decide_eq_true hsource ▸ hsources e he)
  have hnew : Nfa.stateOfEdges edges size = ⟨size, ∅⟩ := by rw [Nfa.stateOfEdges, hnone]; rfl
  simp [addState, nextId, ofEdges, List.range_succ, hnew]

/-- An edge out of a state that exists is added to its edges. -/
theorem addEdge_ofEdges {edges : List Edge} {e : Edge} (hlt : e.source < size) :
    (ofEdges size edges).addEdge e = .ok (ofEdges size (edges ++ [e])) := by
  have hsource : ((List.range size).map (Nfa.stateOfEdges edges))[e.source]? =
      some (Nfa.stateOfEdges edges e.source) := by
    rw [List.getElem?_map, List.getElem?_range hlt, Option.map_some]
  rw [addEdge, ofEdges, hsource]
  refine congrArg Except.ok (congrArg NfaBuilder.mk (List.ext_getElem? fun i => ?_))
  rw [List.getElem?_set, List.getElem?_map, List.getElem?_map]
  rcases Nat.lt_or_ge i size with hi | hi
  · rw [List.getElem?_range hi, Option.map_some, Option.map_some, Nfa.stateOfEdges_append]
    split
    · rename_i heq
      subst heq
      simp [hlt, Nfa.stateOfEdges]
    · rfl
  · have hne : e.source ≠ i := by omega
    simp [hne, hi]

/-- **Edges out of states that exist are never refused**, and they stand behind those that were there
before. -/
theorem addEdges_ofEdges : ∀ {later edges : List Edge}, (∀ e ∈ later, e.source < size) →
    (ofEdges size edges).addEdges later = .ok (ofEdges size (edges ++ later))
  | [], edges, _ => by rw [List.append_nil]; rfl
  | e :: later, edges, h => by
    have hrest := @addEdges_ofEdges later (edges ++ [e]) fun e' he' =>
      h e' (List.mem_cons_of_mem _ he')
    rw [List.append_assoc, List.singleton_append] at hrest
    rw [addEdges, List.foldlM_cons, addEdge_ofEdges (h e List.mem_cons_self)]
    exact hrest

theorem reachable_ofEdges {edges : List Edge} (hsources : ∀ e ∈ edges, e.source < size) :
    (ofEdges size edges).Reachable := by
  have hstates : ∀ n, (ofEdges n []).Reachable := by
    intro n
    induction n with
    | zero => exact .empty
    | succ n ih => exact @addState_ofEdges n [] nofun ▸ ih.addState
  exact (hstates size).addEdges (addEdges_ofEdges hsources)

/-- **States and edges that refer to existing states make an automaton.** -/
theorem build_ofEdges {start accept : Nat} {edges : List Edge} (hstart : start < size)
    (haccept : accept < size) (hedges : ∀ e ∈ edges, e.source < size ∧ e.target < size) :
    (ofEdges size edges).build start accept = .ok (Nfa.ofEdges size start accept edges) := by
  have hids : (ofEdges size edges).ids = List.range size := by
    rw [ids, ofEdges, List.map_map]
    exact List.map_id _
  have htargets : ∀ id ∈ (ofEdges size edges).targets, id ∈ List.range size := by
    intro q hq
    obtain ⟨s, hs, label, hq⟩ := mem_targets_iff.mp hq
    obtain ⟨id, -, rfl⟩ := List.mem_map.mp hs
    rcases Nfa.mem_targets_foldl_addEdge.mp hq with hnone | ⟨e, he, -, rfl⟩
    · contradiction
    · exact List.mem_range.mpr (hedges e (List.mem_of_mem_filter he)).2
  rw [build, hids, if_pos htargets, if_pos ⟨List.mem_range.mpr hstart, List.mem_range.mpr haccept⟩]
  rfl

end NfaBuilder

/-- **Whatever states and edges there are, a builder puts them together.** -/
theorem Nfa.built_ofEdges {size start accept : Nat} {edges : List Edge} (hstart : start < size)
    (haccept : accept < size) (hedges : ∀ e ∈ edges, e.source < size ∧ e.target < size) :
    (ofEdges size start accept edges).Built :=
  .build (NfaBuilder.reachable_ofEdges fun e he => (hedges e he).1)
    (NfaBuilder.build_ofEdges hstart haccept hedges)

/-- The edges of a whole automaton lie between its states. -/
theorem Regex.edges_fragment_lt (e : Regex) {edge : Edge} (hedge : edge ∈ (e.fragment 0).edges) :
    edge.source < (e.fragment 0).next ∧ edge.target < (e.fragment 0).next := by
  obtain ⟨hsource, htarget, -⟩ := (e.tight_fragment 0).edges edge hedge
  exact ⟨hsource.2, htarget.2⟩

/-- Nothing is missing in the states and edges of a fragment. -/
theorem Regex.build_fragment (e : Regex) :
    (NfaBuilder.ofEdges (e.fragment 0).next (e.fragment 0).edges).build (e.fragment 0).start
      (e.fragment 0).accept = .ok e.toNfa :=
  NfaBuilder.build_ofEdges (e.tight_fragment 0).start.2 (e.tight_fragment 0).accept.2
    fun _ => e.edges_fragment_lt

/-- **A builder builds Thompson's automata.** -/
theorem Regex.built_toNfa (e : Regex) : e.toNfa.Built :=
  Nfa.built_ofEdges (e.tight_fragment 0).start.2 (e.tight_fragment 0).accept.2
    fun _ => e.edges_fragment_lt

end FormalLang
