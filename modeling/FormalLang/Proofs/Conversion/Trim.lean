import FormalLang.Proofs.Automaton.Trim
import FormalLang.Proofs.Position.Meaning

/-!
# Both conversions end in trim automata

The automata that the two conversions make of a text have no state in vain
(`conversions_are_trim`).

**Positions lead to the end.**  Every leaf that reads something takes part in some word of the
expression (`PositionTree.exists_reads_of_mark`).  Behind its position the rest of that word can be
read, from neighbour to neighbour, and then the end marker.  So a word leads from every position to
the end (`SyntaxTree.exists_spelled`), and a set of positions gets there with any of its members.
A move leads to what follows a position, and something follows every position but the last.
-/

namespace FormalLang

/-! ## 1. Words through a position -/

namespace PositionTree

variable {p : Nat}

/-- **Every leaf takes part in a word**, unless it is for the empty word. -/
theorem exists_reads_of_mark : ∀ {t : PositionTree} {s : Leaf}, s ≠ .epsilon → (s, p) ∈ t.marks →
    ∃ u v, Reads t (u ++ p :: v)
  | .leaf s' p', s, hs, hmark => by
    obtain ⟨rfl, rfl⟩ := Prod.mk.inj (List.mem_singleton.mp hmark)
    exact ⟨[], [], .leaf p hs⟩
  | .concat l r, s, hs, hmark => by
    rcases List.mem_append.mp hmark with hmark | hmark
    · obtain ⟨u, v, hu⟩ := exists_reads_of_mark hs hmark
      obtain ⟨w, hw⟩ := exists_reads r
      have hwhole := Reads.concat hu hw
      rw [List.append_assoc] at hwhole
      exact ⟨u, v ++ w, hwhole⟩
    · obtain ⟨u, v, hv⟩ := exists_reads_of_mark hs hmark
      obtain ⟨w, hw⟩ := exists_reads l
      have hwhole := Reads.concat hw hv
      rw [← List.append_assoc] at hwhole
      exact ⟨w ++ u, v, hwhole⟩
  | .union l r, s, hs, hmark => by
    rcases List.mem_append.mp hmark with hmark | hmark
    · obtain ⟨u, v, hw⟩ := exists_reads_of_mark hs hmark
      exact ⟨u, v, .unionLeft hw⟩
    · obtain ⟨u, v, hw⟩ := exists_reads_of_mark hs hmark
      exact ⟨u, v, .unionRight hw⟩
  | .star e, s, hs, hmark => by
    obtain ⟨u, v, hw⟩ := exists_reads_of_mark (t := e) hs hmark
    exact ⟨u, v, hw.star⟩

/-- The positions of a word are those of leaves that read something. -/
theorem Reads.exists_mark {t : PositionTree} {w : List Nat} (h : Reads t w) (hp : p ∈ w) :
    ∃ s, s ≠ .epsilon ∧ (s, p) ∈ t.marks := by
  induction h with
  | empty _ => contradiction
  | leaf _ hs =>
    obtain rfl := List.mem_singleton.mp hp
    exact ⟨_, hs, List.mem_cons_self⟩
  | concat _ _ ihl ihr =>
    rcases List.mem_append.mp hp with hp | hp
    · exact (ihl hp).imp fun _ => .imp_right (List.mem_append_left _)
    · exact (ihr hp).imp fun _ => .imp_right (List.mem_append_right _)
  | unionLeft _ ih => exact (ih hp).imp fun _ => .imp_right (List.mem_append_left _)
  | unionRight _ ih => exact (ih hp).imp fun _ => .imp_right (List.mem_append_right _)
  | starNil => contradiction
  | starCons _ _ ihu ihv =>
    rcases List.mem_append.mp hp with hp | hp
    · exact ihu hp
    · exact ihv hp

/-- What is left of a word can be read behind a position in it. -/
theorem Local.runs_of_reads {t : PositionTree} (h : Local t) {v : List Nat} : ∀ {u : List Nat},
    Reads t (u ++ p :: v) → Runs t p v := by
  have hruns : ∀ {u : List Nat} {q : Nat}, Runs t q (u ++ p :: v) → Runs t p v := by
    intro u
    induction u with
    | nil =>
      intro q hrun
      cases hrun with
      | step _ rest => exact rest
    | cons x u ih =>
      intro q hrun
      cases hrun with
      | step _ rest => exact ih rest
  rintro (_ | ⟨x, u⟩) hreads
  · exact ((h p v).mp hreads).2
  · exact hruns ((h x (u ++ p :: v)).mp hreads).2

end PositionTree

/-! ## 2. Sets of positions -/

namespace SyntaxTree

section EndMarker

variable {e : Regex} (hend : Leaf.endMarker ∉ e.leaves)

include hend

/-- A leaf of the expression that reads something reads a character. -/
theorem exists_bears_of_mark {s : Leaf} {p : Nat} (hs : s ≠ .epsilon)
    (hmark : (s, p) ∈ (e.number 1).marks) : ∃ c, (ofRegex (augmented e)).Bears p c := by
  have hsymbol : (ofRegex (augmented e)).symbolAt? p = some s :=
    symbolAt?_ofRegex_iff.mpr (List.mem_append_left _ hmark)
  cases s with
  | char c => exact ⟨c, hsymbol⟩
  | epsilon => contradiction
  | endMarker => exact absurd (PositionTree.mem_leaves_of_mark hmark) hend

/-- **From every position a word leads to the end marker.** -/
theorem exists_spelled {p : Nat} (h : (ofRegex (augmented e)).Reads p) :
    ∃ w, (ofRegex (augmented e)).Spelled p w := by
  obtain ⟨s, hs, hsymbol⟩ := h
  rcases List.mem_append.mp (symbolAt?_ofRegex_iff.mp hsymbol) with hmark | hmark
  · obtain ⟨u, v, hword⟩ := PositionTree.exists_reads_of_mark hs hmark
    have hwhole := reads_augmented hend hword
    rw [List.append_assoc, List.cons_append] at hwhole
    have hruns := (PositionTree.local_of_nodup
      (PositionTree.nodup_positions_number (augmented e) 1)).runs_of_reads hwhole
    have hbears : ∀ x ∈ p :: v, ∃ c, (ofRegex (augmented e)).Bears x c := by
      intro x hx
      obtain ⟨s', hs', hmark'⟩ := hword.exists_mark (List.mem_append_right u hx)
      exact exists_bears_of_mark hend hs' hmark'
    choose! symbol hsymbol using hbears
    refine ⟨(p :: v).map symbol, (spelled_iff (mem_followpos_ofRegex_iff _)
      (endPosition_mem_lastpos hend)).mpr ⟨p :: v, _, hruns, rfl, ?_⟩⟩
    exact List.forall₂_map_right_iff.mpr (List.forall₂_same.mpr hsymbol)
  · obtain ⟨-, rfl⟩ := Prod.mk.inj (List.mem_singleton.mp hmark)
    refine ⟨[], ?_⟩
    rw [← endPosition_augmented hend]
    exact .stop

/-- The end marker reads no character. -/
theorem not_bears_endPosition (c : Char) :
    ¬(ofRegex (augmented e)).Bears (ofRegex (augmented e)).endPosition c := by
  simp [Bears, endPosition_augmented hend, symbolAt?_endMarker]

/-- **Moves never lead to the empty set**, since something follows what reads a character. -/
theorem exists_mem_of_positionMoves {s t : Members} {c : Char}
    (move : (c, t) ∈ (ofRegex (augmented e)).positionMoves s) : ∃ q, q ∈ t := by
  obtain ⟨p, hp, hc⟩ := exists_positionMoves_iff.mp ⟨t, move⟩
  obtain ⟨w, hspelled⟩ := exists_spelled hend ⟨.char c, nofun, hc⟩
  cases hspelled with
  | stop => exact absurd hc (not_bears_endPosition hend c)
  | step _ hq _ => exact ⟨_, (mem_iff_of_positionMoves move).mpr ⟨p, hp, hc, hq⟩⟩

/-- Every set that is found has a position. -/
theorem exists_mem_of_follows {s t : Members} {w : List Char}
    (h : Follows (ofRegex (augmented e)).positionMoves s w t) : (∃ p, p ∈ s) → ∃ q, q ∈ t := by
  induction h with
  | nil s => exact fun hs => hs
  | cons move _ ih => exact fun _ => ih (exists_mem_of_positionMoves hend move)

/-- **The followpos automaton of an augmented expression is trim.** -/
theorem isTrim_toDfa :
    (ofRegex (augmented e)).toDfa.IsTrim (ofRegex (augmented e)).endPosition := by
  have hfirst : ∃ p, p ∈ ((augmented e).number 1).firstpos := by
    obtain ⟨u, hu⟩ := PositionTree.exists_reads (e.number 1)
    have hwhole := reads_augmented hend hu
    cases hw : u ++ [(ofRegex (augmented e)).endPosition] with
    | nil => simp at hw
    | cons p w => exact ⟨p, PositionTree.mem_firstpos_iff.mpr ⟨p :: w, hw ▸ hwhole, rfl⟩⟩
  have hfound : ∀ s ∈ (ofRegex (augmented e)).exploration.found, ∃ w,
      Follows (ofRegex (augmented e)).positionMoves ((augmented e).number 1).firstpos w s :=
    fun s hs => Exploration.exists_follows_of_mem_found hs
  have hnonempty : ∀ s ∈ (ofRegex (augmented e)).exploration.found, ∃ p, p ∈ s := by
    intro s hs
    obtain ⟨w, hw⟩ := hfound s hs
    exact exists_mem_of_follows hend hw hfirst
  refine (explored_exploration _).isTrim_toDfa positionMoves_unique hfound hnonempty fun s hs => ?_
  obtain ⟨p, hp⟩ := hnonempty s hs
  obtain ⟨w, hspelled⟩ := exists_spelled hend (reads_of_mem_found hs hp)
  obtain ⟨t, hfollows, ht⟩ := exists_follows_iff.mpr ⟨p, hp, hspelled⟩
  exact ⟨w, t, hfollows, ht⟩

end EndMarker

end SyntaxTree

/-! ## 3. Texts -/

/-- **The automata of both conversions are trim.**

In the automaton that either conversion makes of a text, the states carry the numbers from zero on
and the start state is the first.  No two states have the same members, and none is without members.
Transitions lead to existing states.  A word leads to each state from the start, and a word leads
from each state to an accepting one.  A state accepts if and only if the accept state of the
nondeterministic automaton, or the position of the end marker, is among its members. -/
theorem conversions_are_trim (cs : List Char) :
    (∀ c, thompson cs = .ok c → c.dfa.IsTrim c.nfa.accept) ∧
    ∀ c, syntaxTree cs = .ok c → c.dfa.IsTrim c.tree.endPosition := by
  refine ⟨fun c hc => ?_, fun c hc => ?_⟩
  · obtain ⟨listing, -, rfl⟩ := exists_listing_of_thompson hc
    exact listing.expression.isTrim_toDfa
  · obtain ⟨listing, hlisting, rfl⟩ := exists_listing_of_syntaxTree hc
    obtain ⟨e, hexpresses, hexpression⟩ := Postfix.exists_expresses_of_augmentedOfText hlisting
    have htrim := SyntaxTree.isTrim_toDfa hexpresses.endMarker_not_mem
    rw [SyntaxTree.augmented, ← hexpression] at htrim
    exact htrim

/-- The listing of `a*b`. -/
def repeatedListing : Postfix :=
  ⟨[⟨.leaf (.char 'a'), 0⟩, ⟨.operator .star, 1⟩, ⟨.leaf (.char 'b'), 2⟩, ⟨.operator .concat, 2⟩],
    .concat (.star (.leaf (.char 'a'))) (.leaf (.char 'b'))⟩

/-- The listing of `(a*b)` and the end marker behind it. -/
def augmentedRepeatedListing : Postfix :=
  ⟨repeatedListing.items ++ [⟨.leaf .endMarker, 3⟩, ⟨.operator .concat, 3⟩],
    .concat repeatedListing.expression (.leaf .endMarker)⟩

theorem thompson_repeated : thompson "a*b".toList = .ok (.ofPostfix repeatedListing) := by
  have hlisting : Postfix.ofText "a*b".toList = .ok repeatedListing := by decide
  rw [thompson, hlisting]

theorem syntaxTree_repeated :
    syntaxTree "a*b".toList = .ok (.ofPostfix augmentedRepeatedListing) := by
  have hlisting : Postfix.augmentedOfText "a*b".toList = .ok augmentedRepeatedListing := by decide
  rw [syntaxTree, hlisting]

/-- The subset automaton of `a*b` has a state for the text after some `a` that the other automaton
does not need.  It is not dead either. -/
theorem conversions_are_trim_repeated :
    thompson "a*b".toList = .ok (.ofPostfix repeatedListing) ∧
    (ThompsonConversion.ofPostfix repeatedListing).dfa.IsTrim 5 ∧
    (ThompsonConversion.ofPostfix repeatedListing).dfa.size = 3 ∧
    syntaxTree "a*b".toList = .ok (.ofPostfix augmentedRepeatedListing) ∧
    (SyntaxTreeConversion.ofPostfix augmentedRepeatedListing).dfa.IsTrim 3 ∧
    (SyntaxTreeConversion.ofPostfix augmentedRepeatedListing).dfa.size = 2 := by
  have hend : (SyntaxTreeConversion.ofPostfix augmentedRepeatedListing).tree.endPosition = 3 := by
    decide
  obtain ⟨hthompson, htree⟩ := conversions_are_trim "a*b".toList
  refine ⟨thompson_repeated, hthompson _ thompson_repeated, ?_, syntaxTree_repeated,
    hend ▸ htree _ syntaxTree_repeated, ?_⟩
  · decide +kernel
  · decide +kernel

end FormalLang
