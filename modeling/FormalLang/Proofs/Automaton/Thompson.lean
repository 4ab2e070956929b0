import FormalLang.Conversion
import FormalLang.Proofs.Regex.Reading
import FormalLang.Proofs.Repetition

/-!
# Thompson's automata accept their language

The paths of Thompson's automaton from its start to its accept state spell the words of the
expression (`Regex.toNfa_path_iff`), and the automaton that is compiled from the listing of a text
has the language of the text (`ThompsonConversion.nfa_path_iff`).

**Isolation.**  The operators put edges around the fragments of their operands, and a path has to be
taken apart at these edges.  All states of a fragment are numbered between its first number and the
next free one, so that two fragments share none, and no edge of a fragment leaves its exit
(`Fragment.Tight`).  A path out of a fragment therefore runs inside it up to the exit and goes on
with an edge that an operator has added (`Fragment.HasPart.exit`).
-/

namespace FormalLang

/-! ## 1. Edges and paths -/

namespace Nfa

theorem mem_targets_foldl_addEdge {label : Label} {q : Nat} : ∀ {edges : List Edge}
    {transitions : OrderedMap Label (List Nat)},
    q ∈ ((edges.foldl addEdge transitions).find? label).getD [] ↔
      q ∈ (transitions.find? label).getD [] ∨ ∃ e ∈ edges, e.label = label ∧ e.target = q
  | [], transitions => by simp
  | e :: edges, transitions => by
    rw [List.foldl_cons, mem_targets_foldl_addEdge, addEdge, OrderedMap.find?_alter]
    simp only [List.mem_cons, exists_eq_or_imp]
    by_cases hlabel : label = e.label
    · subst hlabel
      simp [or_assoc, eq_comm]
    · simp [hlabel, eq_comm]

/-- **An automaton has the edges that it is made of.** -/
theorem hasEdge_ofEdges_iff {size start accept : Nat} {edges : List Edge} {p q : Nat}
    {label : Label} : (ofEdges size start accept edges).HasEdge p label q ↔
      p < size ∧ ⟨p, label, q⟩ ∈ edges := by
  have hfilter : (∃ e ∈ edges.filter fun e => decide (e.source = p),
      e.label = label ∧ e.target = q) ↔ ⟨p, label, q⟩ ∈ edges := by
    constructor
    · rintro ⟨⟨source, _, _⟩, he, rfl, rfl⟩
      obtain ⟨hmem, hsource⟩ := List.mem_filter.mp he
      obtain rfl : source = p := of_decide_eq_true hsource
      exact hmem
    · exact fun hmem => ⟨_, List.mem_filter.mpr ⟨hmem, decide_eq_true rfl⟩, rfl, rfl⟩
  unfold HasEdge targets ofEdges
  dsimp only
  rw [List.getElem?_map]
  by_cases hp : p < size
  · rw [List.getElem?_range hp, Option.map_some]
    dsimp only
    rw [State.targets, stateOfEdges, mem_targets_foldl_addEdge, hfilter]
    simp [hp]
  · rw [List.getElem?_eq_none (by simpa using hp), Option.map_none]
    simp [hp]

end Nfa

/-- Whether a list of edges leads from one state to another with a word. -/
inductive Connects (edges : List Edge) : Nat → List Char → Nat → Prop where
  | refl (p : Nat) : Connects edges p [] p
  | cons {p q r : Nat} {label : Label} {w : List Char} (edge : ⟨p, label, q⟩ ∈ edges)
      (rest : Connects edges q w r) : Connects edges p (label.word ++ w) r

theorem Nfa.path_ofEdges_iff {size start accept : Nat} {edges : List Edge}
    (hsources : ∀ e ∈ edges, e.source < size) {p r : Nat} {w : List Char} :
    (ofEdges size start accept edges).Path p w r ↔ Connects edges p w r := by
  constructor
  · intro h
    induction h with
    | refl p => exact .refl p
    | cons edge _ ih => exact .cons (hasEdge_ofEdges_iff.mp edge).2 ih
  · intro h
    induction h with
    | refl p => exact .refl p
    | cons edge _ ih => exact .cons (hasEdge_ofEdges_iff.mpr ⟨hsources _ edge, edge⟩) ih

namespace Connects

variable {inner outer : List Edge} {p q r : Nat} {u v w : List Char}

theorem trans (h : Connects outer p u q) (h' : Connects outer q v r) :
    Connects outer p (u ++ v) r := by
  induction h with
  | refl p => exact h'
  | cons edge _ ih =>
    rw [List.append_assoc]
    exact .cons edge (ih h')

theorem mono (h : Connects inner p w r) (hsub : ∀ e ∈ inner, e ∈ outer) :
    Connects outer p w r := by
  induction h with
  | refl p => exact .refl p
  | cons edge _ ih => exact .cons (hsub _ edge) ih

/-- An edge without input in front of a path. -/
theorem skip (edge : ⟨p, .epsilon, q⟩ ∈ outer) (h : Connects outer q w r) :
    Connects outer p w r :=
  .cons edge h

/-- A path is empty, or it begins with an edge. -/
theorem eq_or_exists_edge (h : Connects outer p w r) : w = [] ∧ r = p ∨
    ∃ label q v, ⟨p, label, q⟩ ∈ outer ∧ w = label.word ++ v ∧ Connects outer q v r := by
  cases h with
  | refl => exact .inl ⟨rfl, rfl⟩
  | cons edge rest => exact .inr ⟨_, _, _, edge, rfl, rest⟩

/-- From a state without edges there is only the empty path. -/
theorem eq_nil_of_sink (h : Connects outer p w r) (hsink : ∀ e ∈ outer, e.source ≠ p) :
    w = [] := by
  rcases h.eq_or_exists_edge with ⟨hw, -⟩ | ⟨_, _, _, edge, -⟩
  · exact hw
  · exact absurd rfl (hsink _ edge)

end Connects

/-! ## 2. Fragments -/

namespace Fragment

/-- **A fragment is tight**: its states are numbered from `free` up to its next free number, and no
edge leaves its exit. -/
structure Tight (free : Nat) (f : Fragment) : Prop where
  start : free ≤ f.start ∧ f.start < f.next
  accept : free ≤ f.accept ∧ f.accept < f.next
  edges : ∀ e ∈ f.edges, (free ≤ e.source ∧ e.source < f.next) ∧
    (free ≤ e.target ∧ e.target < f.next) ∧ e.source ≠ f.accept

/-- Whether the paths through a fragment spell the words of an expression. -/
def Spells (f : Fragment) (e : Regex) : Prop :=
  ∀ w, Connects f.edges f.start w f.accept ↔ e.Matches w

variable {free : Nat} {f l r : Fragment}

theorem tight_ofLeaf (s : Leaf) (free : Nat) : Tight free (ofLeaf s free) := by
  constructor <;> simp [ofLeaf]

theorem mem_edges_concat {e : Edge} : e ∈ (l.concat r).edges ↔
    e ∈ l.edges ∨ e ∈ r.edges ∨ e = ⟨l.accept, .epsilon, r.start⟩ := by
  simp [concat]

theorem mem_edges_union {e : Edge} : e ∈ (l.union r).edges ↔ e ∈ l.edges ∨ e ∈ r.edges ∨
    e = ⟨r.next, .epsilon, l.start⟩ ∨ e = ⟨r.next, .epsilon, r.start⟩ ∨
      e = ⟨l.accept, .epsilon, r.next + 1⟩ ∨ e = ⟨r.accept, .epsilon, r.next + 1⟩ := by
  simp [union]

theorem mem_edges_star {e : Edge} : e ∈ f.star.edges ↔ e ∈ f.edges ∨
    e = ⟨f.next, .epsilon, f.start⟩ ∨ e = ⟨f.next, .epsilon, f.next + 1⟩ ∨
      e = ⟨f.accept, .epsilon, f.start⟩ ∨ e = ⟨f.accept, .epsilon, f.next + 1⟩ := by
  simp [star]

theorem Tight.concat (hl : Tight free l) (hr : Tight l.next r) : Tight free (l.concat r) := by
  have hls := hl.start
  have hla := hl.accept
  have hrs := hr.start
  have hra := hr.accept
  refine ⟨?_, ?_, fun e he => ?_⟩
  · simp only [Fragment.concat]
    omega
  · simp only [Fragment.concat]
    omega
  · simp only [Fragment.concat]
    rcases mem_edges_concat.mp he with he | he | rfl
    · have := hl.edges e he
      omega
    · have := hr.edges e he
      omega
    · dsimp only
      omega

theorem Tight.union (hl : Tight free l) (hr : Tight l.next r) : Tight free (l.union r) := by
  have hls := hl.start
  have hla := hl.accept
  have hrs := hr.start
  have hra := hr.accept
  refine ⟨?_, ?_, fun e he => ?_⟩
  · simp only [Fragment.union]
    omega
  · simp only [Fragment.union]
    omega
  · simp only [Fragment.union]
    rcases mem_edges_union.mp he with he | he | rfl | rfl | rfl | rfl
    · have := hl.edges e he
      omega
    · have := hr.edges e he
      omega
    all_goals
      dsimp only
      omega

theorem Tight.star (hf : Tight free f) : Tight free f.star := by
  have hs := hf.start
  have ha := hf.accept
  refine ⟨?_, ?_, fun e he => ?_⟩
  · simp only [Fragment.star]
    omega
  · simp only [Fragment.star]
    omega
  · simp only [Fragment.star]
    rcases mem_edges_star.mp he with he | rfl | rfl | rfl | rfl
    · have := hf.edges e he
      omega
    all_goals
      dsimp only
      omega

/-! ## 3. Parts -/

/-- Whether a state is one of a fragment. -/
def Owns (free : Nat) (f : Fragment) (p : Nat) : Prop := free ≤ p ∧ p < f.next

theorem not_owns_of_le {p : Nat} (h : f.next ≤ p) : ¬f.Owns free p :=
  fun hown => Nat.not_lt.mpr h hown.2

/-- The right operand of an operator is numbered behind the left one. -/
theorem Tight.next_le (hr : Tight l.next r) : l.next ≤ r.next :=
  Nat.le_of_lt (Nat.lt_of_le_of_lt hr.start.1 hr.start.2)

/-- **Whether a fragment has another one for a part** that is left from its exit only, without
input and for one of some states. -/
structure HasPart (whole : Fragment) (free : Nat) (part : Fragment) (targets : List Nat) :
    Prop where
  tight : Tight free part
  inside : ∀ e ∈ part.edges, e ∈ whole.edges
  ways : ∀ q ∈ targets, ⟨part.accept, .epsilon, q⟩ ∈ whole.edges
  edge_cases : ∀ e ∈ whole.edges, part.Owns free e.source →
    e ∈ part.edges ∨ ∃ q ∈ targets, e = ⟨part.accept, .epsilon, q⟩

theorem Tight.concat_left (hl : Tight free l) (hr : Tight l.next r) :
    (l.concat r).HasPart free l [r.start] where
  tight := hl
  inside e he := mem_edges_concat.mpr (.inl he)
  ways := by simp [mem_edges_concat]
  edge_cases e he hown := by
    obtain ⟨-, hlt⟩ := hown
    rcases mem_edges_concat.mp he with he | he | rfl
    · exact .inl he
    · have := hr.edges e he
      omega
    · exact .inr ⟨_, List.mem_cons_self, rfl⟩

theorem Tight.concat_right (hl : Tight free l) (hr : Tight l.next r) :
    (l.concat r).HasPart l.next r [] where
  tight := hr
  inside e he := mem_edges_concat.mpr (.inr (.inl he))
  ways := nofun
  edge_cases e he hown := by
    have hla := hl.accept
    obtain ⟨hle, -⟩ := hown
    rcases mem_edges_concat.mp he with he | he | rfl
    · have := hl.edges e he
      omega
    · exact .inl he
    · dsimp only at hle
      omega

theorem Tight.union_left (hl : Tight free l) (hr : Tight l.next r) :
    (l.union r).HasPart free l [r.next + 1] where
  tight := hl
  inside e he := mem_edges_union.mpr (.inl he)
  ways := by simp [mem_edges_union]
  edge_cases e he hown := by
    have hra := hr.accept
    obtain ⟨-, hlt⟩ := hown
    rcases mem_edges_union.mp he with he | he | rfl | rfl | rfl | rfl
    · exact .inl he
    · have := hr.edges e he
      omega
    · dsimp only at hlt
      omega
    · dsimp only at hlt
      omega
    · exact .inr ⟨_, List.mem_cons_self, rfl⟩
    · dsimp only at hlt
      omega

theorem Tight.union_right (hl : Tight free l) (hr : Tight l.next r) :
    (l.union r).HasPart l.next r [r.next + 1] where
  tight := hr
  inside e he := mem_edges_union.mpr (.inr (.inl he))
  ways := by simp [mem_edges_union]
  edge_cases e he hown := by
    have hla := hl.accept
    obtain ⟨hle, hlt⟩ := hown
    rcases mem_edges_union.mp he with he | he | rfl | rfl | rfl | rfl
    · have := hl.edges e he
      omega
    · exact .inl he
    · exact absurd hlt (Nat.lt_irrefl _)
    · exact absurd hlt (Nat.lt_irrefl _)
    · dsimp only at hle
      omega
    · exact .inr ⟨_, List.mem_cons_self, rfl⟩

theorem Tight.star_operand (hf : Tight free f) :
    f.star.HasPart free f [f.start, f.next + 1] where
  tight := hf
  inside e he := mem_edges_star.mpr (.inl he)
  ways := by simp [mem_edges_star]
  edge_cases e he hown := by
    obtain ⟨-, hlt⟩ := hown
    rcases mem_edges_star.mp he with he | rfl | rfl | rfl | rfl
    · exact .inl he
    · exact absurd hlt (Nat.lt_irrefl _)
    · exact absurd hlt (Nat.lt_irrefl _)
    · exact .inr ⟨_, List.mem_cons_self, rfl⟩
    · exact .inr ⟨_, List.mem_cons_of_mem _ List.mem_cons_self, rfl⟩

/-! The edges out of the new entries. -/

theorem Tight.edge_of_union_start (hl : Tight free l) (hr : Tight l.next r) {label : Label}
    {q : Nat} (he : ⟨r.next, label, q⟩ ∈ (l.union r).edges) :
    label = .epsilon ∧ (q = l.start ∨ q = r.start) := by
  have hla := hl.accept
  have hra := hr.accept
  rcases mem_edges_union.mp he with he | he | he | he | he | he
  · have := hl.edges _ he
    dsimp only at this
    omega
  · have := hr.edges _ he
    dsimp only at this
    omega
  · obtain ⟨-, hlabel, hq⟩ := Edge.mk.inj he
    exact ⟨hlabel, .inl hq⟩
  · obtain ⟨-, hlabel, hq⟩ := Edge.mk.inj he
    exact ⟨hlabel, .inr hq⟩
  · have := (Edge.mk.inj he).1
    omega
  · have := (Edge.mk.inj he).1
    omega

theorem Tight.edge_of_star_start (hf : Tight free f) {label : Label} {q : Nat}
    (he : ⟨f.next, label, q⟩ ∈ f.star.edges) :
    label = .epsilon ∧ (q = f.start ∨ q = f.next + 1) := by
  have ha := hf.accept
  rcases mem_edges_star.mp he with he | he | he | he | he
  · have := hf.edges _ he
    dsimp only at this
    omega
  · obtain ⟨-, hlabel, hq⟩ := Edge.mk.inj he
    exact ⟨hlabel, .inl hq⟩
  · obtain ⟨-, hlabel, hq⟩ := Edge.mk.inj he
    exact ⟨hlabel, .inr hq⟩
  · have := (Edge.mk.inj he).1
    omega
  · have := (Edge.mk.inj he).1
    omega

/-! ## 4. Paths through fragments -/

section HasPart

variable {whole part : Fragment} {targets : List Nat} {p q : Nat} {w : List Char}

theorem HasPart.connects (h : whole.HasPart free part targets) (hpath : Connects part.edges p w q) :
    Connects whole.edges p w q :=
  hpath.mono h.inside

/-- **A path out of a part** runs inside it up to the exit, and goes on where an edge leads that was
added there. -/
theorem HasPart.exit (h : whole.HasPart free part targets) (hpath : Connects whole.edges p w q)
    (hp : part.Owns free p) (hq : ¬part.Owns free q) :
    ∃ x ∈ targets, ∃ u v, w = u ++ v ∧ Connects part.edges p u part.accept ∧
      Connects whole.edges x v q := by
  induction hpath with
  | refl p => exact absurd hp hq
  | @cons p p' q label w edge rest ih =>
    rcases h.edge_cases _ edge hp with hinner | ⟨x, hx, heq⟩
    · obtain ⟨x, hx, u, v, rfl, hu, hv⟩ := ih (h.tight.edges _ hinner).2.1 hq
      exact ⟨x, hx, label.word ++ u, v, (List.append_assoc _ _ _).symm, .cons hinner hu, hv⟩
    · obtain ⟨rfl, rfl, rfl⟩ := Edge.mk.inj heq
      exact ⟨p', hx, [], w, rfl, .refl _, rest⟩

/-- A path that begins in a part that is not left stays in it. -/
theorem HasPart.stay (h : whole.HasPart free part []) (hpath : Connects whole.edges p w q)
    (hp : part.Owns free p) : Connects part.edges p w q := by
  induction hpath with
  | refl p => exact .refl p
  | cons edge _ ih =>
    rcases h.edge_cases _ edge hp with hinner | ⟨_, hx, -⟩
    · exact .cons hinner (ih (h.tight.edges _ hinner).2.1)
    · contradiction

/-- **Where a part is left for a state without edges**, a path to that state is one to the exit. -/
theorem HasPart.connects_exit_iff (h : whole.HasPart free part [q]) (hp : part.Owns free p)
    (hq : ¬part.Owns free q) (hsink : ∀ e ∈ whole.edges, e.source ≠ q) :
    Connects whole.edges p w q ↔ Connects part.edges p w part.accept := by
  constructor
  · intro hpath
    obtain ⟨x, hx, u, v, rfl, hu, hv⟩ := h.exit hpath hp hq
    obtain rfl := List.mem_singleton.mp hx
    rwa [hv.eq_nil_of_sink hsink, List.append_nil]
  · intro hpath
    have hend : Connects whole.edges part.accept [] q :=
      .skip (h.ways q List.mem_cons_self) (.refl _)
    have hall := (h.connects hpath).trans hend
    rwa [List.append_nil] at hall

end HasPart

theorem spells_ofLeaf (s : Leaf) (free : Nat) : Spells (ofLeaf s free) (.leaf s) := by
  intro w
  have hword : s.label.word = s.word := by
    cases s <;> rfl
  rw [Regex.matches_leaf_iff, ← hword]
  constructor
  · intro h
    rcases h.eq_or_exists_edge with ⟨-, heq⟩ | ⟨_, _, v, edge, rfl, rest⟩
    · exact absurd heq (Nat.succ_ne_self free)
    · obtain ⟨-, rfl, rfl⟩ := Edge.mk.inj (List.mem_singleton.mp edge)
      have hsink : ∀ e ∈ (ofLeaf s free).edges, e.source ≠ free + 1 :=
        fun e he => ((tight_ofLeaf s free).edges e he).2.2
      rw [rest.eq_nil_of_sink hsink, List.append_nil]
  · rintro rfl
    rw [← List.append_nil s.label.word]
    exact .cons List.mem_cons_self (.refl _)

variable {a b : Regex}

theorem Spells.concat (hl : Tight free l) (hr : Tight l.next r) (ha : l.Spells a)
    (hb : r.Spells b) : (l.concat r).Spells (.concat a b) := by
  have hleft := hl.concat_left hr
  have hright := hl.concat_right hr
  intro w
  rw [Regex.matches_concat_iff]
  constructor
  · intro h
    obtain ⟨x, hx, u, v, rfl, hu, hv⟩ := hleft.exit h hl.start (not_owns_of_le hr.accept.1)
    obtain rfl := List.mem_singleton.mp hx
    exact ⟨u, v, rfl, (ha u).mp hu, (hb v).mp (hright.stay hv hr.start)⟩
  · rintro ⟨u, v, rfl, hu, hv⟩
    exact (hleft.connects ((ha u).mpr hu)).trans
      (.skip (hleft.ways _ List.mem_cons_self) (hright.connects ((hb v).mpr hv)))

theorem Spells.union (hl : Tight free l) (hr : Tight l.next r) (ha : l.Spells a)
    (hb : r.Spells b) : (l.union r).Spells (.union a b) := by
  have hsink : ∀ e ∈ (l.union r).edges, e.source ≠ r.next + 1 :=
    fun e he => ((hl.union hr).edges e he).2.2
  have hleft : ¬l.Owns free (r.next + 1) := not_owns_of_le (Nat.le_succ_of_le hr.next_le)
  have hright : ¬r.Owns l.next (r.next + 1) := not_owns_of_le (Nat.le_succ _)
  intro w
  rw [Regex.matches_union_iff, ← ha w, ← hb w,
    ← (hl.union_left hr).connects_exit_iff hl.start hleft hsink,
    ← (hl.union_right hr).connects_exit_iff hr.start hright hsink]
  constructor
  · intro h
    rcases h.eq_or_exists_edge with ⟨-, heq⟩ | ⟨label, q, v, edge, rfl, rest⟩
    · exact absurd heq (Nat.succ_ne_self r.next)
    · obtain ⟨rfl, rfl | rfl⟩ := hl.edge_of_union_start hr edge
      · exact .inl rest
      · exact .inr rest
  · rintro (h | h)
    · exact .skip (mem_edges_union.mpr (.inr (.inr (.inl rfl)))) h
    · exact .skip (mem_edges_union.mpr (.inr (.inr (.inr (.inl rfl))))) h

/-- A path from inside the operand of a star reads the rest of a word of the operand, and then any
number of words. -/
theorem Spells.rest_of_star (hf : Tight free f) (ha : f.Spells a) {p : Nat} {w : List Char}
    (h : Connects f.star.edges p w (f.next + 1)) : f.Owns free p →
      ∃ u v, w = u ++ v ∧ Connects f.edges p u f.accept ∧ (Regex.star a).Matches v := by
  have hsink : ∀ e ∈ f.star.edges, e.source ≠ f.next + 1 :=
    fun e he => (hf.star.edges e he).2.2
  generalize hr : f.next + 1 = r at h
  induction h with
  | refl p =>
    rintro ⟨-, hlt⟩
    omega
  | @cons p q r label w edge rest ih =>
    intro hp
    rcases hf.star_operand.edge_cases _ edge hp with hinner | ⟨x, hx, heq⟩
    · obtain ⟨u, v, rfl, hu, hv⟩ := ih hr (hf.edges _ hinner).2.1
      exact ⟨label.word ++ u, v, (List.append_assoc _ _ _).symm, .cons hinner hu, hv⟩
    · obtain ⟨rfl, rfl, rfl⟩ := Edge.mk.inj heq
      rcases List.mem_pair.mp hx with rfl | rfl
      · obtain ⟨u, v, rfl, hu, hv⟩ := ih hr hf.start
        exact ⟨[], u ++ v, rfl, .refl _, .starCons ((ha u).mp hu) hv⟩
      · rw [rest.eq_nil_of_sink hsink]
        exact ⟨[], [], rfl, .refl _, .starNil⟩

/-- From the exit of the operand of a star any number of words can follow. -/
theorem Spells.connects_star (hf : Tight free f) (ha : f.Spells a) {w : List Char} (h : (Regex.star a).Matches w) :
    Connects f.star.edges f.accept w (f.next + 1) := by
  have hrounds := Regex.matches_star_iff_mem_kstar.mp h
  clear h
  induction hrounds using kstar_induction with
  | nil => exact .skip (mem_edges_star.mpr (by simp)) (.refl _)
  | cons u _ hu _ ih =>
    exact .skip (mem_edges_star.mpr (by simp)) ((hf.star_operand.connects ((ha u).mpr hu)).trans ih)

theorem Spells.star (hf : Tight free f) (ha : f.Spells a) : f.star.Spells (.star a) := by
  have hsink : ∀ e ∈ f.star.edges, e.source ≠ f.next + 1 :=
    fun e he => (hf.star.edges e he).2.2
  intro w
  constructor
  · intro h
    rcases h.eq_or_exists_edge with ⟨-, heq⟩ | ⟨label, q, v, edge, rfl, rest⟩
    · exact absurd heq (Nat.succ_ne_self f.next)
    · obtain ⟨rfl, rfl | rfl⟩ := hf.edge_of_star_start edge
      · obtain ⟨u, v', rfl, hu, hv⟩ := ha.rest_of_star hf rest hf.start
        exact Regex.matches_star_iff.mpr (.inr ⟨u, v', rfl, (ha u).mp hu, hv⟩)
      · rw [rest.eq_nil_of_sink hsink]
        exact .starNil
  · intro h
    rcases Regex.matches_star_iff.mp h with rfl | ⟨u, v, rfl, hu, hv⟩
    · exact .skip (mem_edges_star.mpr (.inr (.inr (.inl rfl)))) (.refl _)
    · have hinside : Connects f.star.edges f.start u f.accept :=
        hf.star_operand.connects ((ha u).mpr hu)
      exact .skip (mem_edges_star.mpr (.inr (.inl rfl))) (hinside.trans (ha.connects_star hf hv))

end Fragment

/-! ## 5. Expressions and texts -/

namespace Regex

theorem tight_fragment : ∀ (e : Regex) (free : Nat), (e.fragment free).Tight free
  | .leaf s, free => Fragment.tight_ofLeaf s free
  | .concat l r, free => (l.tight_fragment free).concat (r.tight_fragment _)
  | .union l r, free => (l.tight_fragment free).union (r.tight_fragment _)
  | .star e, free => (e.tight_fragment free).star

/-- **Every fragment spells its expression**, wherever its numbers begin. -/
theorem spells_fragment : ∀ (e : Regex) (free : Nat), (e.fragment free).Spells e
  | .leaf s, free => Fragment.spells_ofLeaf s free
  | .concat l r, free =>
    (l.spells_fragment free).concat (l.tight_fragment free) (r.tight_fragment _)
      (r.spells_fragment _)
  | .union l r, free =>
    (l.spells_fragment free).union (l.tight_fragment free) (r.tight_fragment _)
      (r.spells_fragment _)
  | .star e, free => (e.spells_fragment free).star (e.tight_fragment free)

/-- **Thompson's automaton accepts the language of its expression.** -/
theorem toNfa_path_iff (e : Regex) (w : List Char) :
    e.toNfa.Path e.toNfa.start w e.toNfa.accept ↔ e.Matches w := by
  have hsources : ∀ edge ∈ (e.fragment 0).edges, edge.source < (e.fragment 0).next :=
    fun edge hedge => ((e.tight_fragment 0).edges edge hedge).1.2
  exact (Nfa.path_ofEdges_iff hsources).trans (e.spells_fragment 0 w)

end Regex

/-- **The automaton that is compiled from the listing of a text has the language of the text**, and
that from the augmented listing has the end marker behind every word. -/
theorem ThompsonConversion.nfa_path_iff (cs : List Char) :
    (∀ listing, Postfix.ofText cs = .ok listing → ∀ w,
      (ofPostfix listing).nfa.Path (ofPostfix listing).nfa.start w (ofPostfix listing).nfa.accept ↔
        TextDenotes cs w) ∧
    (∀ listing, Postfix.augmentedOfText cs = .ok listing → ∀ w,
      (ofPostfix listing).nfa.Path (ofPostfix listing).nfa.start w (ofPostfix listing).nfa.accept ↔
        ∃ u, w = u ++ [endMarkerChar] ∧ TextDenotes cs u) := by
  constructor
  · intro listing h w
    obtain ⟨hexpresses, -⟩ := Postfix.expresses_of_ofText h
    rw [hexpresses.denotes_iff]
    exact Regex.toNfa_path_iff _ w
  · intro listing h w
    obtain ⟨e, hexpresses, hexpression⟩ := Postfix.exists_expresses_of_augmentedOfText h
    refine (Regex.toNfa_path_iff _ w).trans ?_
    rw [hexpression, Regex.matches_concat_iff]
    constructor
    · rintro ⟨u, v, rfl, hu, hv⟩
      rw [Regex.matches_leaf_iff.mp hv]
      exact ⟨u, rfl, hexpresses.denotes_iff.mpr hu⟩
    · rintro ⟨u, rfl, hu⟩
      exact ⟨u, _, rfl, hexpresses.denotes_iff.mp hu, .leaf .endMarker⟩

namespace ThompsonConversion

/-- The listing of `a*`. -/
def starListing : Postfix :=
  ⟨[⟨.leaf (.char 'a'), 0⟩, ⟨.operator .star, 1⟩], .star (.leaf (.char 'a'))⟩

/-- The listing of `(a*)` and the end marker behind it. -/
def augmentedStarListing : Postfix :=
  ⟨starListing.items ++ [⟨.leaf .endMarker, 2⟩, ⟨.operator .concat, 2⟩],
    .concat starListing.expression (.leaf .endMarker)⟩

theorem star_denotes : TextDenotes "a*".toList ['a', 'a'] := by
  have hkinds : List.Forall₂ CharIs "a*".toList [.leaf (.char 'a'), .operator .star] :=
    .cons (.char (by decide) (by decide)) (.cons .star .nil)
  have hwritten : Written .expression [.leaf (.char 'a'), .operator .star]
      starListing.expression :=
    .ofTerm (.ofFactor (.star (.ofAtom (.leaf (.char 'a')))))
  exact ⟨_, ⟨_, hkinds, hwritten⟩,
    .starCons (.leaf (.char 'a')) (.starCons (.leaf (.char 'a')) .starNil)⟩

theorem nfa_path_iff_star :
    (Postfix.ofText "a*".toList = .ok starListing ∧
      (ofPostfix starListing).nfa.Path (ofPostfix starListing).nfa.start ['a', 'a']
        (ofPostfix starListing).nfa.accept) ∧
    Postfix.augmentedOfText "a*".toList = .ok augmentedStarListing ∧
      (ofPostfix augmentedStarListing).nfa.Path (ofPostfix augmentedStarListing).nfa.start
        ['a', 'a', '#'] (ofPostfix augmentedStarListing).nfa.accept := by
  have hlisting : Postfix.ofText "a*".toList = .ok starListing := by decide
  have haugmented : Postfix.augmentedOfText "a*".toList = .ok augmentedStarListing := by decide
  refine ⟨⟨hlisting, ?_⟩, haugmented, ?_⟩
  · exact ((nfa_path_iff "a*".toList).1 starListing hlisting ['a', 'a']).mpr star_denotes
  · exact ((nfa_path_iff "a*".toList).2 augmentedStarListing haugmented ['a', 'a', '#']).mpr
      ⟨['a', 'a'], rfl, star_denotes⟩

end ThompsonConversion

end FormalLang
