import FormalLang.Proofs.Conversion.Trim

/-!
# The shape of Thompson's automata

Thompson's automata have two states for each leaf, union and star.  No edge leads to the start state
and none leaves the accept state; each state has one edge with a character or at most two without
input; and each lies on a path from the start to the accept state (`thompson_isThompson`).

**All of it is kept by the operators**, which add edges to fragments that were made before
(`Fragment.Shaped`).  New edges leave new states or the exits of operands.  Neither has had an edge
(`Fragment.Tight.outOf_eq_nil`), so that edges with a character stay alone, and two edges are the
most that one state gets.  That a path leads to each state of a fragment from its entry is the
mirror image of `Fragment.Live`.
-/

namespace FormalLang

/-! ## 1. The edges out of a state -/

/-- The edges of a list that leave a state. -/
def outOf (edges : List Edge) (p : Nat) : List Edge := edges.filter fun e => e.source = p

/-- **Whether edges go together at one state**: one with a character, or at most two without
input. -/
inductive Plain : List Edge → Prop where
  | read (p : Nat) (c : Char) (q : Nat) : Plain [⟨p, .char c, q⟩]
  | skip {edges : List Edge} (length_le : edges.length ≤ 2)
      (labels : ∀ e ∈ edges, e.label = .epsilon) : Plain edges

variable {edges edges' : List Edge} {p : Nat}

theorem outOf_append : outOf (edges ++ edges') p = outOf edges p ++ outOf edges' p :=
  List.filter_append ..

theorem outOf_eq_nil_iff : outOf edges p = [] ↔ ∀ e ∈ edges, e.source ≠ p := by
  simp [outOf]

theorem outOf_cons (e : Edge) : outOf (e :: edges) p =
    if e.source = p then e :: outOf edges p else outOf edges p := by
  simp [outOf, List.filter_cons]

/-- **New edges without input at states that had no edges.** -/
theorem plain_outOf_append {added : List Edge} (hold : Plain (outOf edges p))
    (hnew : ∀ e ∈ added, e.label = .epsilon ∧ outOf edges e.source = [])
    (hlength : (outOf added p).length ≤ 2) : Plain (outOf (edges ++ added) p) := by
  rw [outOf_append]
  rcases hadded : outOf added p with _ | ⟨e, rest⟩
  · rwa [List.append_nil]
  · have hmem : ∀ e ∈ outOf added p, e ∈ added ∧ e.source = p :=
      fun e he => by simpa [outOf] using he
    have hnone : outOf edges p = [] := by
      obtain ⟨he, hsource⟩ := hmem e (by simp [hadded])
      rw [← hsource]
      exact (hnew e he).2
    rw [hnone, List.nil_append, ← hadded]
    exact .skip hlength fun e he => (hnew e (hmem e he).1).1

/-! ## 2. Fragments -/

namespace Fragment

/-- **The shape of a fragment**: no edge leads to its entry, the edges out of a state go together,
and a path leads from its entry to each of its states. -/
structure Shaped (free : Nat) (f : Fragment) : Prop where
  entry : ∀ e ∈ f.edges, e.target ≠ f.start
  plain : ∀ p, Plain (outOf f.edges p)
  entered : ∀ p, f.Owns free p → ∃ w, Connects f.edges f.start w p

variable {free : Nat} {f l r whole : Fragment} {targets : List Nat} {p : Nat}

/-- No edge leaves the exit of a fragment, nor a state that is not its own. -/
theorem Tight.outOf_eq_nil (h : Tight free f) (hp : p = f.accept ∨ ¬ f.Owns free p) :
    outOf f.edges p = [] := by
  rw [outOf_eq_nil_iff]
  rintro e he rfl
  obtain ⟨hown, -, hne⟩ := h.edges e he
  exact hp.elim hne fun hnot => hnot hown

/-- A state that is the exit of its operand, or of none, has no edges of either. -/
theorem Tight.outOf_operands_eq_nil (hl : Tight free l) (hr : Tight l.next r)
    (hp : p = l.accept ∨ ¬ l.Owns free p) (hp' : p = r.accept ∨ ¬ r.Owns l.next p) :
    outOf (l.edges ++ r.edges) p = [] := by
  rw [outOf_append, hl.outOf_eq_nil hp, hr.outOf_eq_nil hp', List.append_nil]

/-- The edges of two operands, of which a state belongs to one at most. -/
theorem Shaped.plain_operands (hl : Tight free l) (hr : Tight l.next r) (hl' : Shaped free l)
    (hr' : Shaped l.next r) (p : Nat) : Plain (outOf (l.edges ++ r.edges) p) := by
  rw [outOf_append]
  rcases Nat.lt_or_ge p l.next with hp | hp
  · rw [hr.outOf_eq_nil (.inr fun hown => absurd hown.1 (Nat.not_le.mpr hp)), List.append_nil]
    exact hl'.plain p
  · rw [hl.outOf_eq_nil (.inr (not_owns_of_le hp)), List.nil_append]
    exact hr'.plain p

/-- A path through a part, behind an edge without input to its entry. -/
theorem Shaped.exists_connects (hf : Shaped free f) (part : whole.HasPart free f targets)
    (hp : f.Owns free p) {q : Nat} (edge : ⟨q, .epsilon, f.start⟩ ∈ whole.edges) :
    ∃ w, Connects whole.edges q w p := by
  obtain ⟨w, hw⟩ := hf.entered p hp
  exact ⟨w, .skip edge (part.connects hw)⟩

theorem shaped_ofLeaf (s : Leaf) (free : Nat) : Shaped free (ofLeaf s free) where
  entry := by simp [ofLeaf]
  plain p := by
    simp only [ofLeaf, outOf_cons]
    split
    · cases s with
      | char c => exact .read free c (free + 1)
      | epsilon => exact .skip (Nat.le_succ 1) (by simp [Leaf.label, outOf])
      | endMarker => exact .read free endMarkerChar (free + 1)
    · exact .skip (Nat.zero_le 2) (by simp [outOf])
  entered p hp := by
    obtain ⟨hle, hlt⟩ := hp
    have hcases : p = free ∨ p = free + 1 := by
      simp only [ofLeaf] at hlt
      omega
    rcases hcases with rfl | rfl
    · exact ⟨[], .refl _⟩
    · exact ⟨_, .cons List.mem_cons_self (.refl _)⟩

theorem Shaped.concat (hl : Tight free l) (hr : Tight l.next r) (hl' : Shaped free l)
    (hr' : Shaped l.next r) : Shaped free (l.concat r) where
  entry e he := by
    have hls := hl.start
    have hrs := hr.start
    simp only [Fragment.concat]
    rcases mem_edges_concat.mp he with he | he | rfl
    · exact hl'.entry e he
    · have := hr.edges e he
      omega
    · dsimp only
      omega
  plain p := by
    have hla := hl.accept
    have hexit : outOf (l.edges ++ r.edges) l.accept = [] :=
      hl.outOf_operands_eq_nil hr (.inl rfl) (.inr (by simp only [Owns]; omega))
    refine plain_outOf_append (hl'.plain_operands hl hr hr' p) (by simp [hexit]) ?_
    exact Nat.le_trans (List.length_filter_le _ _) (Nat.le_succ 1)
  entered p hp := by
    have hleft := hl.concat_left hr
    obtain ⟨hle, hlt⟩ := hp
    rcases Nat.lt_or_ge p l.next with hp | hp
    · obtain ⟨w, hw⟩ := hl'.entered p ⟨hle, hp⟩
      exact ⟨w, hleft.connects hw⟩
    · -- past the exit of the left operand, to the entry of the right one
      obtain ⟨u, hu⟩ := hl'.entered l.accept hl.accept
      obtain ⟨v, hv⟩ := hr'.exists_connects (hl.concat_right hr) ⟨hp, hlt⟩
        (hleft.ways _ List.mem_cons_self)
      exact ⟨u ++ v, (hleft.connects hu).trans hv⟩

theorem Shaped.union (hl : Tight free l) (hr : Tight l.next r) (hl' : Shaped free l)
    (hr' : Shaped l.next r) : Shaped free (l.union r) where
  entry e he := by
    have hls := hl.start
    have hrs := hr.start
    simp only [Fragment.union]
    rcases mem_edges_union.mp he with he | he | rfl | rfl | rfl | rfl
    · have := hl.edges e he
      omega
    · have := hr.edges e he
      omega
    all_goals
      dsimp only
      omega
  plain p := by
    have hla := hl.accept
    have hra := hr.accept
    have hentry : outOf (l.edges ++ r.edges) r.next = [] := hl.outOf_operands_eq_nil hr
      (.inr (by simp only [Owns]; omega)) (.inr (by simp [Owns]))
    have hleft : outOf (l.edges ++ r.edges) l.accept = [] :=
      hl.outOf_operands_eq_nil hr (.inl rfl) (.inr (by simp only [Owns]; omega))
    have hright : outOf (l.edges ++ r.edges) r.accept = [] :=
      hl.outOf_operands_eq_nil hr (.inr (by simp only [Owns]; omega)) (.inl rfl)
    refine plain_outOf_append (hl'.plain_operands hl hr hr' p) (by simp [hentry, hleft, hright]) ?_
    simp only [outOf_cons]
    split_ifs <;> simp [outOf] <;> omega
  entered p hp := by
    have hleft := hl.union_left hr
    have henter : ⟨r.next, .epsilon, l.start⟩ ∈ (l.union r).edges := mem_edges_union.mpr (by simp)
    have henter' : ⟨r.next, .epsilon, r.start⟩ ∈ (l.union r).edges :=
      mem_edges_union.mpr (by simp)
    obtain ⟨hle, hlt⟩ := hp
    have hcases : p < l.next ∨ l.next ≤ p ∧ p < r.next ∨ p = r.next ∨ p = r.next + 1 := by
      simp only [Fragment.union] at hlt
      omega
    rcases hcases with hp | hp | rfl | rfl
    · exact hl'.exists_connects hleft ⟨hle, hp⟩ henter
    · exact hr'.exists_connects (hl.union_right hr) hp henter'
    · exact ⟨[], .refl _⟩
    · -- the new exit is behind that of the left operand
      obtain ⟨w, hw⟩ := hl'.exists_connects hleft hl.accept henter
      exact ⟨w ++ [], hw.trans (.skip (hleft.ways _ List.mem_cons_self) (.refl _))⟩

theorem Shaped.star (hf : Tight free f) (hf' : Shaped free f) : Shaped free f.star where
  entry e he := by
    have hs := hf.start
    simp only [Fragment.star]
    rcases mem_edges_star.mp he with he | rfl | rfl | rfl | rfl
    · have := hf.edges e he
      omega
    all_goals
      dsimp only
      omega
  plain p := by
    have ha := hf.accept
    have hentry : outOf f.edges f.next = [] := hf.outOf_eq_nil (.inr (by simp [Owns]))
    have hexit : outOf f.edges f.accept = [] := hf.outOf_eq_nil (.inl rfl)
    refine plain_outOf_append (hf'.plain p) (by simp [hentry, hexit]) ?_
    simp only [outOf_cons]
    split_ifs <;> simp [outOf]
    omega
  entered p hp := by
    have hskip : ⟨f.next, .epsilon, f.next + 1⟩ ∈ f.star.edges := mem_edges_star.mpr (by simp)
    obtain ⟨hle, hlt⟩ := hp
    have hcases : p < f.next ∨ p = f.next ∨ p = f.next + 1 := by
      simp only [Fragment.star] at hlt
      omega
    rcases hcases with hp | rfl | rfl
    · exact hf'.exists_connects hf.star_operand ⟨hle, hp⟩ (mem_edges_star.mpr (.inr (.inl rfl)))
    · exact ⟨[], .refl _⟩
    · exact ⟨[], .skip hskip (.refl _)⟩

end Fragment

/-- **Every fragment has this shape.** -/
theorem Regex.shaped_fragment : ∀ (e : Regex) (free : Nat), (e.fragment free).Shaped free
  | .leaf s, free => Fragment.shaped_ofLeaf s free
  | .concat l r, free => .concat (l.tight_fragment free) (r.tight_fragment _)
    (l.shaped_fragment free) (r.shaped_fragment _)
  | .union l r, free => .union (l.tight_fragment free) (r.tight_fragment _)
    (l.shaped_fragment free) (r.shaped_fragment _)
  | .star e, free => .star (e.tight_fragment free) (e.shaped_fragment free)

/-- Whether an entry of a listing is given states of its own. -/
def Entry.hasStates (entry : Entry) : Bool := entry ≠ .operator .concat

/-- **Two states for each entry**, concatenations apart. -/
theorem Regex.next_fragment : ∀ (e : Regex) (free : Nat),
    (e.fragment free).next = free + 2 * e.listing.countP Entry.hasStates
  | .leaf s, free => rfl
  | .concat l r, free => by
    rw [fragment, Fragment.concat, r.next_fragment, l.next_fragment, listing]
    simp [Entry.hasStates]
    omega
  | .union l r, free => by
    rw [fragment, Fragment.union, r.next_fragment, l.next_fragment, listing]
    simp [Entry.hasStates]
    omega
  | .star e, free => by
    rw [fragment, Fragment.star, e.next_fragment, listing]
    simp [Entry.hasStates]
    omega

/-! ## 3. Automata -/

namespace Nfa

/-- **Whether a state is plain**: it has one edge, with a character, or no edge, or one or two edges
without input. -/
def State.IsPlain (s : State) : Prop :=
  (∃ c q, s.transitions.toList = [(.char c, [q])]) ∨ s.transitions.toList = [] ∨
    (∃ q, s.transitions.toList = [(.epsilon, [q])]) ∨
      ∃ q q', s.transitions.toList = [(.epsilon, [q, q'])]

theorem isPlain_stateOfEdges {edges : List Edge} {id : Nat} (h : Plain (outOf edges id)) :
    (stateOfEdges edges id).IsPlain := by
  have hstate : stateOfEdges edges id = ⟨id, (outOf edges id).foldl addEdge ∅⟩ := rfl
  rw [hstate]
  generalize outOf edges id = out at h
  cases h with
  | read p c q => exact .inl ⟨c, q, rfl⟩
  | skip length_le labels =>
    rcases out with _ | ⟨⟨p, label, q⟩, _ | ⟨⟨p', label', q'⟩, _ | ⟨_, _⟩⟩⟩
    · exact .inr (.inl rfl)
    · obtain rfl : label = .epsilon := labels _ List.mem_cons_self
      exact .inr (.inr (.inl ⟨q, rfl⟩))
    · obtain rfl : label = .epsilon := labels _ List.mem_cons_self
      obtain rfl : label' = .epsilon := labels ⟨p', label', q'⟩ (by simp)
      exact .inr (.inr (.inr ⟨q, q', rfl⟩))
    · simp at length_le

/-- **The shape of Thompson's automata**, with the number of leaves, stars and unions. -/
structure IsThompson (nfa : Nfa) (count : Nat) : Prop where
  ids : nfa.states.map State.id = List.range nfa.size
  size : nfa.size = 2 * count
  /-- No edge leads to the start state. -/
  start : ∀ p label, ¬ nfa.HasEdge p label nfa.start
  /-- No edge leaves the accept state. -/
  accept : ∀ label q, ¬ nfa.HasEdge nfa.accept label q
  plain : ∀ s ∈ nfa.states, s.IsPlain
  through : ∀ p < nfa.size, ∃ u v, nfa.Path nfa.start u p ∧ nfa.Path p v nfa.accept

end Nfa

theorem Regex.isThompson_toNfa (e : Regex) :
    e.toNfa.IsThompson (e.listing.countP Entry.hasStates) := by
  have tight := e.tight_fragment 0
  have shaped := e.shaped_fragment 0
  have hsources : ∀ edge ∈ (e.fragment 0).edges, edge.source < (e.fragment 0).next :=
    fun edge hedge => (e.edges_fragment_lt hedge).1
  have hsize : e.toNfa.size = (e.fragment 0).next := by
    simp [Regex.toNfa, Fragment.toNfa, Nfa.size, Nfa.ofEdges]
  refine ⟨e.built_toNfa.wellFormed.ids, ?_, fun p label hedge => ?_, fun label q hedge => ?_,
    fun s hs => ?_, fun p hp => ?_⟩
  · rw [hsize, e.next_fragment, Nat.zero_add]
  · exact shaped.entry _ (Nfa.hasEdge_ofEdges_iff.mp hedge).2 rfl
  · exact (tight.edges _ (Nfa.hasEdge_ofEdges_iff.mp hedge).2).2.2 rfl
  · obtain ⟨id, -, rfl⟩ := List.mem_map.mp hs
    exact Nfa.isPlain_stateOfEdges (shaped.plain id)
  · have hown : (e.fragment 0).Owns 0 p := ⟨Nat.zero_le p, hsize ▸ hp⟩
    obtain ⟨u, hu⟩ := shaped.entered p hown
    obtain ⟨v, hv⟩ := e.live_fragment 0 p hown
    exact ⟨u, v, (Nfa.path_ofEdges_iff hsources).mpr hu, (Nfa.path_ofEdges_iff hsources).mpr hv⟩

/-- The number of entries of a listing that are given states of their own. -/
def Postfix.countStates (p : Postfix) : Nat := p.items.countP fun item => item.entry.hasStates

theorem Postfix.isThompson_toNfa {p : Postfix}
    (h : p.items.map Item.entry = p.expression.listing) :
    p.expression.toNfa.IsThompson p.countStates := by
  have hcount : p.countStates = p.expression.listing.countP Entry.hasStates := by
    rw [← h, List.countP_map]
    rfl
  rw [hcount]
  exact p.expression.isThompson_toNfa

/-- **The automaton that is compiled from an accepted text has the shape of Thompson's automata**,
with two states for each leaf, star and union of the listing.  So it has with the end marker behind
the text. -/
theorem thompson_isThompson (cs : List Char) :
    (∀ c, thompson cs = .ok c → c.nfa.IsThompson c.listing.countStates) ∧
    ∀ p, Postfix.augmentedOfText cs = .ok p → p.expression.toNfa.IsThompson p.countStates := by
  refine ⟨fun c hc => ?_, fun p hp => ?_⟩
  · obtain ⟨listing, hlisting, rfl⟩ := exists_listing_of_thompson hc
    exact Postfix.isThompson_toNfa (Postfix.expresses_of_ofText hlisting).2
  · exact Postfix.isThompson_toNfa (Postfix.listing_of_augmentedOfText hp)

/-- Two leaves and a star make six states, of which the exit of the first leaf has two edges.  The
end marker takes two more. -/
theorem thompson_isThompson_repeated :
    thompson "a*b".toList = .ok (.ofPostfix repeatedListing) ∧
    (ThompsonConversion.ofPostfix repeatedListing).nfa.IsThompson 3 ∧
    Postfix.augmentedOfText "a*b".toList = .ok augmentedRepeatedListing ∧
    augmentedRepeatedListing.expression.toNfa.IsThompson 4 ∧
    ((ThompsonConversion.ofPostfix repeatedListing).nfa.states[1]?.map fun s =>
      s.transitions.toList) = some [(.epsilon, [0, 3])] := by
  have hread : Postfix.augmentedOfText "a*b".toList = .ok augmentedRepeatedListing := by decide
  obtain ⟨hplain, haugmented⟩ := thompson_isThompson "a*b".toList
  exact ⟨thompson_repeated, hplain _ thompson_repeated, hread, haugmented _ hread, by decide⟩

end FormalLang
