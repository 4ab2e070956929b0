import FormalLang.Conversion
import FormalLang.Proofs.Automaton.Exploration
import FormalLang.Proofs.Position.Tables
import FormalLang.Proofs.Regex.Reading

/-!
# The followpos construction is correct

The automaton of a text accepts the words of the text (`SyntaxTreeConversion.dfa_accepts_iff`).

**From sets to positions.**  A set of positions moves to everything that follows one of its members,
so that it reaches the end marker exactly if one of its members does, from neighbour to neighbour
(`Spelled`, `exists_follows_iff`).  Such a walk is a run through the tree of the expression, and so
it is spelled by a word of positions that the tree reads (`PositionTree.local_of_nodup`).

**The end marker** is at one leaf only, the last one, because no text can contain it.  It is the
only last position of the whole tree.
-/

namespace FormalLang

namespace SyntaxTree

variable {tree : SyntaxTree} {p q : Nat} {c : Char} {w : List Char}

/-! ## 1. Moves -/

/-- Whether a position reads a character. -/
def Bears (tree : SyntaxTree) (p : Nat) (c : Char) : Prop := tree.symbolAt? p = some (.char c)

theorem addMoves_cases (tree : SyntaxTree) (moves : OrderedMap Char Members) (p : Nat) :
    (∃ c, tree.Bears p c ∧ tree.addMoves moves p =
      moves.alter c fun target => target.getD ∅ ∪ tree.followpos p) ∨
    (∀ c, ¬tree.Bears p c) ∧ tree.addMoves moves p = moves := by
  unfold addMoves
  split
  · rename_i c hc
    exact .inl ⟨c, hc, rfl⟩
  · rename_i hnone
    exact .inr ⟨fun c hc => hnone c hc, rfl⟩

theorem Bears.unique {c' : Char} (h : tree.Bears p c) (h' : tree.Bears p c') : c = c' :=
  Leaf.char.inj (Option.some.inj (h.symm.trans h'))

theorem Bears.iff_eq {c' : Char} (h : tree.Bears p c') : tree.Bears p c ↔ c = c' := by
  constructor
  · exact fun hc => hc.unique h
  · rintro rfl
    exact h

theorem mem_foldl_addMoves_iff : ∀ {ps : List Nat} {moves : OrderedMap Char Members},
    q ∈ ((ps.foldl tree.addMoves moves).find? c).getD ∅ ↔
      q ∈ (moves.find? c).getD ∅ ∨ ∃ p ∈ ps, tree.Bears p c ∧ q ∈ tree.followpos p
  | [], moves => by simp
  | p :: ps, moves => by
    rw [List.foldl_cons, mem_foldl_addMoves_iff]
    simp only [List.mem_cons, exists_eq_or_imp]
    rcases tree.addMoves_cases moves p with ⟨c', hc', heq⟩ | ⟨hnone, heq⟩
    · rw [heq, OrderedMap.mem_alter_union_iff, hc'.iff_eq, or_assoc]
    · rw [heq]
      simp [hnone c]

theorem isSome_foldl_addMoves_iff : ∀ {ps : List Nat} {moves : OrderedMap Char Members},
    ((ps.foldl tree.addMoves moves).find? c).isSome = true ↔
      (moves.find? c).isSome = true ∨ ∃ p ∈ ps, tree.Bears p c
  | [], moves => by simp
  | p :: ps, moves => by
    rw [List.foldl_cons, isSome_foldl_addMoves_iff]
    simp only [List.mem_cons, exists_eq_or_imp]
    rcases tree.addMoves_cases moves p with ⟨c', hc', heq⟩ | ⟨hnone, heq⟩
    · rw [heq, OrderedMap.find?_alter, hc'.iff_eq]
      by_cases hc : c = c' <;> simp [hc]
    · rw [heq]
      simp [hnone c]

/-- **A move leads to what follows the positions of its character.** -/
theorem mem_iff_of_positionMoves {s t : Members} (h : (c, t) ∈ tree.positionMoves s) :
    q ∈ t ↔ ∃ p ∈ s, tree.Bears p c ∧ q ∈ tree.followpos p := by
  have hmem : q ∈ ((s.toList.foldl tree.addMoves ∅).find? c).getD ∅ ↔
      q ∈ ((∅ : OrderedMap Char Members).find? c).getD ∅ ∨
        ∃ p ∈ s.toList, tree.Bears p c ∧ q ∈ tree.followpos p := mem_foldl_addMoves_iff
  rw [OrderedMap.mem_toList.mp h] at hmem
  simp only [Option.getD_some, OrderedMap.find?_empty, Option.getD_none, OrderedSet.not_mem_empty,
    false_or] at hmem
  exact hmem

/-- A set moves on the characters of its positions. -/
theorem exists_positionMoves_iff {s : Members} :
    (∃ t, (c, t) ∈ tree.positionMoves s) ↔ ∃ p ∈ s, tree.Bears p c := by
  have hsome : ((s.toList.foldl tree.addMoves ∅).find? c).isSome = true ↔
      ((∅ : OrderedMap Char Members).find? c).isSome = true ∨ ∃ p ∈ s.toList, tree.Bears p c :=
    isSome_foldl_addMoves_iff
  rw [Option.isSome_iff_exists] at hsome
  simp only [OrderedMap.find?_empty, Option.isSome_none, Bool.false_eq_true, false_or] at hsome
  exact (exists_congr fun _ => OrderedMap.mem_toList).trans hsome

/-- A set has one move at most for each character. -/
theorem positionMoves_unique (s : Members) (c : Char) (t t' : Members)
    (h : (c, t) ∈ tree.positionMoves s) (h' : (c, t') ∈ tree.positionMoves s) : t = t' :=
  Option.some.inj ((OrderedMap.mem_toList.mp h).symm.trans (OrderedMap.mem_toList.mp h'))

/-! ## 2. Walks to the end marker -/

/-- **Whether a word can be read from a position on**, up to the end marker. -/
inductive Spelled (tree : SyntaxTree) : Nat → List Char → Prop where
  | stop : Spelled tree tree.endPosition []
  | step {p q : Nat} {c : Char} {w : List Char} (hc : tree.Bears p c)
      (hq : q ∈ tree.followpos p) (rest : Spelled tree q w) : Spelled tree p (c :: w)

/-- **A set gets to the end marker exactly if one of its members does.** -/
theorem exists_follows_iff : ∀ {w : List Char} {s : Members},
    (∃ t, Follows tree.positionMoves s w t ∧ tree.endPosition ∈ t) ↔ ∃ p ∈ s, tree.Spelled p w
  | [], s => by
    constructor
    · rintro ⟨t, hfollows, ht⟩
      cases hfollows
      exact ⟨tree.endPosition, ht, .stop⟩
    · rintro ⟨p, hp, hspelled⟩
      cases hspelled
      exact ⟨s, .nil s, hp⟩
  | c :: w, s => by
    constructor
    · rintro ⟨t, hfollows, ht⟩
      cases hfollows with
      | cons move rest =>
        obtain ⟨q, hq, hspelled⟩ := exists_follows_iff.mp ⟨t, rest, ht⟩
        obtain ⟨p, hp, hc, hfollow⟩ := (mem_iff_of_positionMoves move).mp hq
        exact ⟨p, hp, .step hc hfollow hspelled⟩
    · rintro ⟨p, hp, hspelled⟩
      cases hspelled with
      | step hc hq rest =>
        obtain ⟨t, move⟩ := exists_positionMoves_iff.mpr ⟨_, hp, hc⟩
        have hmem := (mem_iff_of_positionMoves move).mpr ⟨p, hp, hc, hq⟩
        obtain ⟨t', hfollows, ht'⟩ := exists_follows_iff.mpr ⟨_, hmem, rest⟩
        exact ⟨t', .cons move hfollows, ht'⟩

/-- Walks are the runs through a tree whose neighbours are listed, up to the end marker. -/
theorem spelled_iff {shape : PositionTree}
    (hfollow : ∀ p q, q ∈ tree.followpos p ↔ shape.Precedes p q)
    (hend : tree.endPosition ∈ shape.lastpos) :
    tree.Spelled p w ↔ ∃ ps qs, shape.Runs p qs ∧ p :: qs = ps ++ [tree.endPosition] ∧
      List.Forall₂ tree.Bears ps w := by
  constructor
  · intro h
    induction h with
    | stop => exact ⟨[], [], .stop hend, rfl, .nil⟩
    | @step p q c w hc hq _ ih =>
      obtain ⟨ps, qs, hruns, hword, hbears⟩ := ih
      exact ⟨p :: ps, q :: qs, .step ((hfollow p q).mp hq) hruns, congrArg (p :: ·) hword,
        .cons hc hbears⟩
  · rintro ⟨ps, qs, hruns, hword, hbears⟩
    induction hruns generalizing ps w with
    | @stop p _ =>
      have hsplit : [] ++ [p] = ps ++ [tree.endPosition] := hword
      obtain ⟨rfl, hp⟩ := List.append_inj' hsplit rfl
      obtain rfl := (List.cons.inj hp).1
      cases hbears
      exact .stop
    | @step p q qs hpq _ ih =>
      cases hbears with
      | nil =>
        obtain ⟨-, hnil⟩ := List.cons.inj hword
        contradiction
      | cons hc hbears =>
        obtain ⟨rfl, hrest⟩ := List.cons.inj hword
        exact .step hc ((hfollow _ q).mpr hpq) (ih _ hrest hbears)

/-! ## 3. Words of an expression -/

theorem exists_append_of_forall₂ {us vs : List Nat} (h : List.Forall₂ tree.Bears (us ++ vs) w) :
    ∃ u v, w = u ++ v ∧ List.Forall₂ tree.Bears us u ∧ List.Forall₂ tree.Bears vs v := by
  have hu := List.forall₂_take us.length h
  have hv := List.forall₂_drop us.length h
  rw [List.take_left] at hu
  rw [List.drop_left] at hv
  exact ⟨_, _, (List.take_append_drop us.length w).symm, hu, hv⟩

/-- A star repeats spelled words as it repeats words of positions. -/
theorem matches_star_iff_reads {e : Regex} {t : PositionTree}
    (he : ∀ u, e.Matches u ↔ ∃ us, t.Reads us ∧ List.Forall₂ tree.Bears us u) :
    (Regex.star e).Matches w ↔
      ∃ ps, (PositionTree.star t).Reads ps ∧ List.Forall₂ tree.Bears ps w := by
  simp only [Regex.matches_star_iff_mem_kstar, PositionTree.reads_star_iff_mem_kstar]
  constructor
  · intro h
    induction h using kstar_induction with
    | nil => exact ⟨[], Language.nil_mem_kstar _, .nil⟩
    | cons u v hu _ ih =>
      obtain ⟨us, hus, hu⟩ := (he u).mp hu
      obtain ⟨vs, hvs, hv⟩ := ih
      exact ⟨us ++ vs, kstar_cons hus hvs, List.rel_append hu hv⟩
  · rintro ⟨ps, hreads, hbears⟩
    induction hreads using kstar_induction generalizing w with
    | nil =>
      cases hbears
      exact Language.nil_mem_kstar _
    | cons us vs hus _ ih =>
      obtain ⟨u, v, rfl, hu, hv⟩ := exists_append_of_forall₂ hbears
      exact kstar_cons ((he u).mpr ⟨us, hus, hu⟩) (ih hv)

/-- **The words of an expression are spelled by the words of its positions**, wherever the leaves
are in the table. -/
theorem matches_iff_reads : ∀ {e : Regex} {first : Nat} {w : List Char},
    Leaf.endMarker ∉ e.leaves →
    (∀ s p, (s, p) ∈ (e.number first).marks → tree.symbolAt? p = some s) →
      (e.Matches w ↔ ∃ ps, (e.number first).Reads ps ∧ List.Forall₂ tree.Bears ps w)
  | .leaf s, first, w, hend, hmarks => by
    have hsymbol : tree.symbolAt? first = some s := hmarks s first List.mem_cons_self
    rw [Regex.matches_leaf_iff, Regex.number]
    simp only [PositionTree.reads_leaf_iff]
    cases s with
    | char c =>
      simp [Leaf.word, Bears, List.forall₂_cons_left_iff, hsymbol, eq_comm]
    | epsilon => simp [Leaf.word]
    | endMarker => exact absurd List.mem_cons_self hend
  | .concat l r, first, w, hend, hmarks => by
    rw [Regex.leaves, List.mem_append, not_or] at hend
    have hl := fun u => matches_iff_reads (e := l) (w := u) hend.1 fun s p h =>
      hmarks s p (List.mem_append_left _ h)
    have hr := fun v => matches_iff_reads (e := r) (w := v) hend.2 fun s p h =>
      hmarks s p (List.mem_append_right _ h)
    simp only [Regex.matches_concat_iff, Regex.number, PositionTree.reads_concat_iff, hl, hr]
    constructor
    · rintro ⟨u, v, rfl, ⟨us, hus, hu⟩, vs, hvs, hv⟩
      exact ⟨us ++ vs, ⟨us, vs, rfl, hus, hvs⟩, List.rel_append hu hv⟩
    · rintro ⟨ps, ⟨us, vs, rfl, hus, hvs⟩, h⟩
      obtain ⟨u, v, rfl, hu, hv⟩ := exists_append_of_forall₂ h
      exact ⟨u, v, rfl, ⟨us, hus, hu⟩, vs, hvs, hv⟩
  | .union l r, first, w, hend, hmarks => by
    rw [Regex.leaves, List.mem_append, not_or] at hend
    rw [Regex.matches_union_iff, Regex.number,
      matches_iff_reads hend.1 fun s p h => hmarks s p (List.mem_append_left _ h),
      matches_iff_reads hend.2 fun s p h => hmarks s p (List.mem_append_right _ h)]
    simp only [PositionTree.reads_union_iff, or_and_right, exists_or]
  | .star e, first, w, hend, hmarks => by
    exact matches_star_iff_reads fun u => matches_iff_reads (e := e) hend hmarks

/-! ## 4. The tables of an expression -/

section Tables

variable {e : Regex}

theorem mem_followpos_ofRegex_iff (e : Regex) (p q : Nat) :
    q ∈ (ofRegex e).followpos p ↔ (e.number 1).Precedes p q :=
  PositionTree.mem_followTable_iff (PositionTree.nodup_positions_number e 1)

theorem symbolAt?_ofRegex_iff {s : Leaf} :
    (ofRegex e).symbolAt? p = some s ↔ (s, p) ∈ (e.number 1).marks :=
  PositionTree.find?_symbolTable_iff (PositionTree.nodup_positions_number e 1)

theorem mem_keys_symbols_iff : p ∈ (ofRegex e).symbols.keys ↔ p ∈ (e.number 1).positions := by
  rw [OrderedMap.mem_keys, OrderedMap.contains, Option.isSome_iff_exists, PositionTree.positions,
    List.mem_map]
  constructor
  · rintro ⟨s, hs⟩
    exact ⟨(s, p), symbolAt?_ofRegex_iff.mp hs, rfl⟩
  · rintro ⟨⟨s, p'⟩, hmem, rfl⟩
    exact ⟨s, symbolAt?_ofRegex_iff.mpr hmem⟩

/-- **The exploration of a tree ends.** -/
theorem explored_exploration (e : Regex) :
    Exploration.Explored (ofRegex e).positionMoves (e.number 1).firstpos
      (ofRegex e).exploration := by
  have hclosed : ∀ s : Members, (∀ x ∈ s, x ∈ (ofRegex e).symbols.keys) → ∀ c t,
      (c, t) ∈ (ofRegex e).positionMoves s → ∀ x ∈ t, x ∈ (ofRegex e).symbols.keys := by
    intro s _ c t move x hx
    obtain ⟨p, -, -, hfollow⟩ := (mem_iff_of_positionMoves move).mp hx
    exact mem_keys_symbols_iff.mpr ((mem_followpos_ofRegex_iff e p x).mp hfollow).mem_positions.2
  have hstart : ∀ x ∈ (e.number 1).firstpos, x ∈ (ofRegex e).symbols.keys :=
    fun x hx => mem_keys_symbols_iff.mpr (PositionTree.mem_positions_of_firstpos hx)
  have hsize : (ofRegex e).symbols.keys.length ≤ (ofRegex e).symbols.size + 1 := by
    rw [OrderedMap.keys, List.length_map]
    exact Nat.le_succ _
  exact Exploration.explored_run hclosed hstart hsize

/-- **The automaton accepts the words that can be read from a first position.** -/
theorem accepts_toDfa_iff (e : Regex) (w : List Char) :
    (ofRegex e).toDfa.accepts w = true ↔
      ∃ p ∈ (e.number 1).firstpos, (ofRegex e).Spelled p w := by
  refine ((explored_exploration e).accepts_iff positionMoves_unique).trans ?_
  rw [← exists_follows_iff]
  simp only [decide_eq_true_eq]

/-- A leaf that is in the table once is where the end marker is looked for. -/
theorem endPositionOf_eq {symbols : OrderedMap Nat Leaf} (h : symbols.find? p = some .endMarker)
    (hunique : ∀ q, symbols.find? q = some .endMarker → q = p) : endPositionOf symbols = p := by
  unfold endPositionOf
  cases hfind : symbols.toList.find? fun entry => decide (entry.2 = Leaf.endMarker) with
  | none =>
    have hnot := List.find?_eq_none.mp hfind _ (OrderedMap.mem_toList.mpr h)
    simp at hnot
  | some entry =>
    obtain ⟨q, s⟩ := entry
    have hs : s = Leaf.endMarker := of_decide_eq_true (List.find?_some hfind :)
    subst hs
    exact hunique q (OrderedMap.mem_toList.mp (List.mem_of_find?_eq_some hfind))

end Tables

/-! ## 5. The end marker -/

section EndMarker

variable {e : Regex}

/-- The expression with the end marker behind it. -/
abbrev augmented (e : Regex) : Regex := .concat e (.leaf .endMarker)

theorem symbolAt?_endMarker (e : Regex) :
    (ofRegex (augmented e)).symbolAt? (1 + e.leafCount) = some .endMarker :=
  symbolAt?_ofRegex_iff.mpr (List.mem_append_right _ List.mem_cons_self)

/-- The end marker of an augmented expression is at the last position only. -/
theorem eq_of_symbolAt?_endMarker (hend : Leaf.endMarker ∉ e.leaves) {q : Nat}
    (hq : (ofRegex (augmented e)).symbolAt? q = some .endMarker) : q = 1 + e.leafCount := by
  rcases List.mem_append.mp (symbolAt?_ofRegex_iff.mp hq) with hq | hq
  · exact absurd (PositionTree.mem_leaves_of_mark hq) hend
  · exact (Prod.mk.inj (List.mem_singleton.mp hq)).2

theorem endPosition_augmented (hend : Leaf.endMarker ∉ e.leaves) :
    (ofRegex (augmented e)).endPosition = 1 + e.leafCount := by
  exact endPositionOf_eq (symbolAt?_endMarker e) fun q => eq_of_symbolAt?_endMarker hend

/-- The words of an augmented expression end with the end marker. -/
theorem endPosition_mem_lastpos (hend : Leaf.endMarker ∉ e.leaves) :
    (ofRegex (augmented e)).endPosition ∈ ((augmented e).number 1).lastpos := by
  rw [endPosition_augmented hend]
  exact PositionTree.mem_lastpos_concat_iff.mpr
    (.inl (PositionTree.mem_lastpos_leaf_iff.mpr ⟨nofun, rfl⟩))

/-- Behind every word of positions stands the end marker. -/
theorem reads_augmented (hend : Leaf.endMarker ∉ e.leaves) {ps : List Nat}
    (h : (e.number 1).Reads ps) :
    ((augmented e).number 1).Reads (ps ++ [(ofRegex (augmented e)).endPosition]) := by
  rw [endPosition_augmented hend]
  exact .concat h (.leaf _ nofun)

/-- **The automaton of an augmented expression accepts the language of the expression.** -/
theorem accepts_augmented_iff (hend : Leaf.endMarker ∉ e.leaves) (w : List Char) :
    (ofRegex (augmented e)).toDfa.accepts w = true ↔ e.Matches w := by
  have hposition := endPosition_augmented hend
  have hlast := endPosition_mem_lastpos hend
  have hlocal := PositionTree.local_of_nodup (PositionTree.nodup_positions_number (augmented e) 1)
  have hmarks : ∀ s p, (s, p) ∈ (e.number 1).marks →
      (ofRegex (augmented e)).symbolAt? p = some s :=
    fun s p h => symbolAt?_ofRegex_iff.mpr (List.mem_append_left _ h)
  rw [accepts_toDfa_iff, matches_iff_reads hend hmarks]
  simp only [spelled_iff (mem_followpos_ofRegex_iff (augmented e)) hlast]
  constructor
  · rintro ⟨p, hp, ps, qs, hruns, hword, hbears⟩
    obtain ⟨us, vs, hsplit, hus, hvs⟩ :=
      PositionTree.reads_concat_iff.mp ((hlocal p qs).mpr ⟨hp, hruns⟩)
    rcases PositionTree.reads_leaf_iff.mp hvs with ⟨hs, -⟩ | ⟨-, rfl⟩
    · contradiction
    · obtain ⟨rfl, -⟩ := List.append_inj' (hword.symm.trans hsplit) rfl
      exact ⟨ps, hus, hbears⟩
  · rintro ⟨ps, hreads, hbears⟩
    have hwhole := reads_augmented hend hreads
    cases hps : ps ++ [(ofRegex (augmented e)).endPosition] with
    | nil => simp at hps
    | cons p qs =>
      rw [hps] at hwhole
      obtain ⟨hp, hruns⟩ := (hlocal p qs).mp hwhole
      exact ⟨p, hp, ps, qs, hruns, hps.symm, hbears⟩

end EndMarker

end SyntaxTree

/-! ## 6. Texts -/

/-- **The followpos construction is correct**: the automaton that it makes of a text accepts exactly
the words of the text. -/
theorem SyntaxTreeConversion.dfa_accepts_iff (cs : List Char) (conversion : SyntaxTreeConversion)
    (h : syntaxTree cs = .ok conversion) (w : List Char) :
    conversion.dfa.accepts w = true ↔ TextDenotes cs w := by
  unfold syntaxTree at h
  split at h
  · contradiction
  · rename_i listing hlisting
    obtain rfl := Except.ok.inj h
    obtain ⟨e, hexpresses, hexpression⟩ := Postfix.exists_expresses_of_augmentedOfText hlisting
    rw [hexpresses.denotes_iff, SyntaxTreeConversion.ofPostfix_dfa, hexpression]
    exact SyntaxTree.accepts_augmented_iff hexpresses.endMarker_not_mem w

namespace SyntaxTreeConversion

/-- The listing of `((a|ε)*)` and the end marker behind it. -/
def optionalStarListing : Postfix :=
  ⟨[⟨.leaf (.char 'a'), 1⟩, ⟨.leaf .epsilon, 3⟩, ⟨.operator .union, 2⟩, ⟨.operator .star, 5⟩,
      ⟨.leaf .endMarker, 6⟩, ⟨.operator .concat, 6⟩],
    .concat (.star (.union (.leaf (.char 'a')) (.leaf .epsilon))) (.leaf .endMarker)⟩

/-- The words `a` and the empty word, any number of times. -/
theorem optionalStar_denotes : TextDenotes "(a|ε)*".toList ['a', 'a'] := by
  have hkinds : List.Forall₂ CharIs "(a|ε)*".toList [.openParen, .leaf (.char 'a'),
      .operator .union, .leaf .epsilon, .closeParen, .operator .star] :=
    .cons .openParen (.cons (.char (by decide) (by decide)) (.cons .union
      (.cons .epsilon (.cons .closeParen (.cons .star .nil)))))
  have hunion : Written .expression [.leaf (.char 'a'), .operator .union, .leaf .epsilon]
      (.union (.leaf (.char 'a')) (.leaf .epsilon)) :=
    .union (.ofTerm (.ofFactor (.ofAtom (.leaf _)))) (.ofFactor (.ofAtom (.leaf _)))
  have hwritten : Written .expression [.openParen, .leaf (.char 'a'), .operator .union,
      .leaf .epsilon, .closeParen, .operator .star]
      (.star (.union (.leaf (.char 'a')) (.leaf .epsilon))) :=
    .ofTerm (.ofFactor (.star (.ofAtom (.group hunion))))
  exact ⟨_, ⟨_, hkinds, hwritten⟩, .starCons (.unionLeft (.leaf (.char 'a')))
    (.starCons (.unionRight (.leaf .epsilon))
      (.starCons (.unionLeft (.leaf (.char 'a'))) .starNil))⟩

theorem dfa_accepts_iff_optionalStar :
    syntaxTree "(a|ε)*".toList = .ok (ofPostfix optionalStarListing) ∧
      (ofPostfix optionalStarListing).dfa.accepts ['a', 'a'] = true := by
  have hlisting : Postfix.augmentedOfText "(a|ε)*".toList = .ok optionalStarListing := by decide
  have hconversion : syntaxTree "(a|ε)*".toList = .ok (ofPostfix optionalStarListing) := by
    rw [syntaxTree, hlisting]
  exact ⟨hconversion,
    (dfa_accepts_iff "(a|ε)*".toList _ hconversion ['a', 'a']).mpr optionalStar_denotes⟩

end SyntaxTreeConversion

end FormalLang
