import FormalLang.Proofs.Automaton.Compiling
import FormalLang.Proofs.Automaton.Determinizing
import FormalLang.Proofs.Position.Growing

/-!
# The conversions take nothing for granted

A conversion puts passes and constructions in a row, and each of them relies on what the ones before
it have made sure of.  Here both conversions are written out with a lapse wherever one of them does,
and on every text they come to the same as the conversions without lapses
(`conversions_have_no_lapse`): an error of the front end, or a result.

**It all depends on the listing.**  A text that the front end accepts has the listing of an
expression.  On such a listing operators find their operands, and the constructions need no more:
what they build next refers only to what they have built before.
-/

namespace FormalLang

/-! ## 1. Conversions with lapses -/

/-- **What a conversion comes to**: the listing, what was made of it on the way, the automaton and
the steps. -/
structure Outcome (α : Type) where
  listing : List Token
  source : α
  dfa : Dfa
  steps : List Step

/-- Goes on with the listing of a text, if it has one. -/
def convertWith {α : Type} (listing : Except Lapse (Except RegexError (List Token)))
    (build : List Token → Except Lapse (α × List Step))
    (explore : α → Except Lapse (Dfa × List Step)) :
    Except Lapse (Except RegexError (Outcome α)) :=
  match listing with
  | .error l => .error l
  | .ok (.error e) => .ok (.error e)
  | .ok (.ok tokens) => do
    let (source, steps) ← build tokens
    let (dfa, later) ← explore source
    return .ok ⟨tokens, source, dfa, steps ++ later⟩

/-- Thompson's construction and the subset construction on a text. -/
def tryThompson (cs : List Char) : Except Lapse (Except RegexError (Outcome Nfa)) :=
  convertWith (Postfix.tryOfText cs) Compiler.compile Nfa.determinize

/-- The followpos construction on a text. -/
def trySyntaxTree (cs : List Char) : Except Lapse (Except RegexError (Outcome FlatTree)) :=
  convertWith (Postfix.tryAugmentedOfText cs) TreeBuilder.build FlatTree.construct

/-- What a conversion by way of a nondeterministic automaton comes to. -/
def ThompsonConversion.outcome (c : ThompsonConversion) : Outcome Nfa :=
  ⟨c.listing.tokens, c.nfa, c.dfa, c.steps⟩

/-- What a conversion by way of a syntax tree comes to. -/
def SyntaxTreeConversion.outcome (c : SyntaxTreeConversion) : Outcome FlatTree :=
  ⟨c.listing.tokens, c.tree.flat, c.dfa, c.steps⟩

/-! ## 2. Listings -/

namespace Postfix

/-- The listing of a text with the end marker behind it is that of an expression. -/
theorem listing_of_augmentedOfText {cs : List Char} {p : Postfix} (h : augmentedOfText cs = .ok p) :
    p.items.map Item.entry = p.expression.listing := by
  unfold augmentedOfText at h
  split at h
  · contradiction
  · rename_i tokens hscan
    split at h
    · contradiction
    · have hne := concat_not_mem_of_charIs (Token.kinds_of_scanFrom hscan)
      exact (written_of_ofTokens (concat_not_mem_augmentTokens hne cs.length) h).2

/-- A listing has no parentheses. -/
theorem kind_of_mem_tokens {p : Postfix} {t : Token} (h : t ∈ p.tokens) :
    t.kind ≠ .openParen ∧ t.kind ≠ .closeParen := by
  obtain ⟨⟨entry, position⟩, -, rfl⟩ := List.mem_map.mp h
  cases entry with
  | leaf s => exact ⟨nofun, nofun⟩
  | operator op => exact ⟨nofun, nofun⟩

/-- A leaf stands in a listing as often as in the expression. -/
theorem countP_listing (e : Regex) (s : Leaf) :
    e.listing.countP (fun x => decide (x = .leaf s)) = e.leaves.count s := by
  induction e with
  | leaf s' => simp [Regex.listing, Regex.leaves, List.count_singleton, List.countP_singleton]
  | concat l r ihl ihr => simp [Regex.listing, Regex.leaves, ihl, ihr]
  | union l r ihl ihr => simp [Regex.listing, Regex.leaves, ihl, ihr]
  | star e ih => simp [Regex.listing, Regex.leaves, ih]

/-- **The end marker stands in the listing of an augmented text once.** -/
theorem countP_endMarker {cs : List Char} {p : Postfix} (h : augmentedOfText cs = .ok p) :
    p.tokens.countP (fun t => decide (t.kind = .leaf .endMarker)) = 1 := by
  obtain ⟨e, hexpresses, hexpression⟩ := exists_expresses_of_augmentedOfText h
  have hkind : ∀ item : Item, decide (item.token.kind = .leaf .endMarker) =
      decide (item.entry = .leaf .endMarker) := by
    rintro ⟨_ | _, _⟩
    · simp [Item.token, Entry.kind]
    · simp [Item.token, Entry.kind]
  have hcount := countP_listing p.expression .endMarker
  rw [← listing_of_augmentedOfText h, List.countP_map, hexpression, Regex.leaves,
    List.count_append, List.count_eq_zero_of_not_mem hexpresses.endMarker_not_mem] at hcount
  rw [tokens, List.countP_map]
  exact (List.countP_congr fun item _ => by simp [hkind]).trans hcount

end Postfix

/-! ## 3. Automata -/

/-- **Whether a deterministic automaton is in order**: its states carry their own numbers, and the
start state, the accepting states and all targets exist. -/
structure Dfa.WellFormed (dfa : Dfa) : Prop where
  ids : dfa.states.map Dfa.State.id = List.range dfa.size
  start_lt : dfa.start < dfa.size
  accept_lt : ∀ id ∈ dfa.accept, id < dfa.size
  targets_lt : ∀ id c target, dfa.transition? id c = some target → target < dfa.size

namespace Exploration

variable {next : Members → List (Char × Members)} {start : Members} {e : Exploration}
  {accepting : Members → Bool}

theorem size_toDfa (e : Exploration) (accepting : Members → Bool) :
    (e.toDfa accepting).size = e.found.length := by
  rw [Dfa.size, toDfa, List.length_mapIdx]

/-- **The automaton of a finished exploration is in order.** -/
theorem Explored.wellFormed_toDfa (h : Explored next start e)
    (deterministic : ∀ s c t t', (c, t) ∈ next s → (c, t') ∈ next s → t = t') :
    (e.toDfa accepting).WellFormed where
  ids := by
    rw [size_toDfa]
    exact List.ext_getElem (by simp [toDfa]) fun i _ _ => by simp [toDfa]
  start_lt := by
    rw [size_toDfa]
    exact (List.getElem?_eq_some_iff.mp h.begins).1
  accept_lt id hid := by
    obtain ⟨s, hs, -⟩ := (isAccepting_toDfa_iff e accepting id).mp (decide_eq_true hid)
    rw [size_toDfa]
    exact (List.getElem?_eq_some_iff.mp hs).1
  targets_lt id c target htransition := by
    obtain ⟨_, t, -, -, ht⟩ := (h.transition?_iff deterministic).mp htransition
    rw [size_toDfa]
    exact (List.getElem?_eq_some_iff.mp ht).1

/-- **Every move is a transition**, so that no second target was entered. -/
theorem Explored.transition?_of_mem_moves (h : Explored next start e)
    (deterministic : ∀ s c t t', (c, t) ∈ next s → (c, t') ∈ next s → t = t') {m : Move}
    (hm : m ∈ e.moves) : (e.toDfa accepting).transition? m.source m.symbol = some m.target := by
  obtain ⟨s, hs, harrow, htarget⟩ := (h.moves m).mp hm
  exact (h.transition?_iff deterministic).mpr ⟨s, m.members, hs, harrow, htarget⟩

/-- The moves among the steps of an exploration are its moves. -/
theorem mem_moves_of_mem_steps {m : Move} (h : .dfaMove m ∈ e.steps start) : m ∈ e.moves := by
  rcases List.mem_cons.mp h with h | h
  · contradiction
  · obtain ⟨m', hm', heq⟩ := List.mem_map.mp h
    exact Step.dfaMove.inj heq ▸ hm'

end Exploration

/-- Thompson's construction makes no move. -/
theorem Regex.dfaMove_not_mem_fragment (m : Move) : ∀ (e : Regex) (free : Nat),
    .dfaMove m ∉ (e.fragment free).steps
  | .leaf s, free => by simp [Regex.fragment, Fragment.ofLeaf]
  | .concat l r, free => by
    simp [Regex.fragment, Fragment.concat, l.dfaMove_not_mem_fragment m,
      r.dfaMove_not_mem_fragment m]
  | .union l r, free => by
    simp [Regex.fragment, Fragment.union, l.dfaMove_not_mem_fragment m,
      r.dfaMove_not_mem_fragment m]
  | .star e, free => by
    simp [Regex.fragment, Fragment.star, e.dfaMove_not_mem_fragment m]

/-- Nor does the growth of a tree. -/
theorem PositionTree.dfaMove_not_mem_steps (m : Move) : ∀ t : PositionTree, .dfaMove m ∉ t.steps
  | .leaf s p => by simp [PositionTree.steps]
  | .concat l r => by
    simp [PositionTree.steps, l.dfaMove_not_mem_steps m, r.dfaMove_not_mem_steps m]
  | .union l r => by
    simp [PositionTree.steps, l.dfaMove_not_mem_steps m, r.dfaMove_not_mem_steps m]
  | .star e => by simp [PositionTree.steps, e.dfaMove_not_mem_steps m]

/-- The moves among the steps of a conversion are those of the exploration. -/
theorem ThompsonConversion.mem_moves_of_mem_steps {listing : Postfix} {m : Move}
    (h : .dfaMove m ∈ (ofPostfix listing).steps) :
    m ∈ listing.expression.toNfa.exploration.moves := by
  rcases List.mem_append.mp h with h | h
  · rcases List.mem_cons.mp h with h | h
    · contradiction
    · exact absurd h (listing.expression.dfaMove_not_mem_fragment m 0)
  · exact Exploration.mem_moves_of_mem_steps h

theorem SyntaxTreeConversion.mem_moves_of_mem_steps {listing : Postfix} {m : Move}
    (h : .dfaMove m ∈ (ofPostfix listing).steps) :
    m ∈ (SyntaxTree.ofRegex listing.expression).exploration.moves := by
  have hgrown : .dfaMove m ∉ (SyntaxTree.ofRegex listing.expression).steps := by
    simp [SyntaxTree.steps, SyntaxTree.ofRegex, PositionTree.dfaMove_not_mem_steps]
  rcases List.mem_append.mp h with h | h
  · rcases List.mem_append.mp h with h | h
    · rcases List.mem_cons.mp h with h | h
      · contradiction
      · exact absurd h hgrown
    · exact Exploration.mem_moves_of_mem_steps h
  · have := List.mem_singleton.mp h
    contradiction

/-! ## 4. Both conversions -/

/-- **The first conversion has no lapse**, whatever the text. -/
theorem tryThompson_eq (cs : List Char) :
    tryThompson cs = .ok ((thompson cs).map ThompsonConversion.outcome) := by
  rw [tryThompson, Postfix.tryOfText_eq, thompson]
  cases hread : Postfix.ofText cs with
  | error e => rfl
  | ok p =>
    have hcompiled := Compiler.compile_eq (Postfix.expresses_of_ofText hread).2
    have hdeterminized := p.expression.built_toNfa.wellFormed.determinize_eq
    simp only [convertWith, Except.map, bind, Except.bind, hcompiled, hdeterminized]
    rfl

/-- **Nor has the second.** -/
theorem trySyntaxTree_eq (cs : List Char) :
    trySyntaxTree cs = .ok ((syntaxTree cs).map SyntaxTreeConversion.outcome) := by
  rw [trySyntaxTree, Postfix.tryAugmentedOfText_eq, syntaxTree]
  cases hread : Postfix.augmentedOfText cs with
  | error e => rfl
  | ok p =>
    obtain ⟨e, -, hexpression⟩ := Postfix.exists_expresses_of_augmentedOfText hread
    have hend : Leaf.endMarker ∈ p.expression.leaves := by
      rw [hexpression]
      exact List.mem_append_right _ List.mem_cons_self
    have hbuilt := TreeBuilder.build_eq (Postfix.listing_of_augmentedOfText hread) hend
    have hconstructed := SyntaxTree.construct_flat p.expression
    simp only [convertWith, Except.map, bind, Except.bind, hbuilt, hconstructed,
      ← List.append_assoc]
    rfl

theorem exists_listing_of_thompson {cs : List Char} {c : ThompsonConversion}
    (h : thompson cs = .ok c) :
    ∃ listing, Postfix.ofText cs = .ok listing ∧ c = .ofPostfix listing := by
  unfold thompson at h
  split at h
  · contradiction
  · rename_i listing hlisting
    exact ⟨listing, hlisting, (Except.ok.inj h).symm⟩

theorem exists_listing_of_syntaxTree {cs : List Char} {c : SyntaxTreeConversion}
    (h : syntaxTree cs = .ok c) :
    ∃ listing, Postfix.augmentedOfText cs = .ok listing ∧ c = .ofPostfix listing := by
  unfold syntaxTree at h
  split at h
  · contradiction
  · rename_i listing hlisting
    exact ⟨listing, hlisting, (Except.ok.inj h).symm⟩

/-- **The members of a state are positions of characters and of the end marker.** -/
theorem SyntaxTree.position_of_mem_members {e : Regex} (hend : Leaf.endMarker ∉ e.leaves)
    {s : Dfa.State} (hs : s ∈ (ofRegex (augmented e)).toDfa.states) {p : Nat} (hp : p ∈ s.members) :
    p = (ofRegex (augmented e)).endPosition ∨
      ∃ c, (ofRegex (augmented e)).symbolAt? p = some (.char c) := by
  obtain ⟨i, hi, rfl⟩ := List.mem_mapIdx.mp hs
  obtain ⟨leaf, hleaf, hsymbol⟩ := reads_of_mem_found (List.getElem_mem hi) hp
  cases leaf with
  | char c => exact .inr ⟨c, hsymbol⟩
  | epsilon => contradiction
  | endMarker =>
    rw [endPosition_augmented hend]
    exact .inl (eq_of_symbolAt?_endMarker hend hsymbol)

/-- **No text brings a conversion to a lapse.**

Each conversion, with every step checked that relies on something, comes to what it comes to without
the checks: an error of the front end, or a result.  No parenthesis is in a listing, and the end
marker is in that of an augmented text once.  The automata are in order, so that every edge and
every transition leads to a state.  Each transition that was entered is there in the end, so that
none was entered for a state and a character that had another target.  What any node of a syntax
tree can end with has an entry in the table of following positions, and the members of the states
that are made of the tree are the positions of characters and of the end marker. -/
theorem conversions_have_no_lapse (cs : List Char) :
    tryThompson cs = .ok ((thompson cs).map ThompsonConversion.outcome) ∧
    trySyntaxTree cs = .ok ((syntaxTree cs).map SyntaxTreeConversion.outcome) ∧
    (∀ c, thompson cs = .ok c →
      (∀ t ∈ c.listing.tokens, t.kind ≠ .openParen ∧ t.kind ≠ .closeParen) ∧
      c.nfa.WellFormed ∧ c.dfa.WellFormed ∧
      ∀ m, .dfaMove m ∈ c.steps → c.dfa.transition? m.source m.symbol = some m.target) ∧
    ∀ c, syntaxTree cs = .ok c →
      (∀ t ∈ c.listing.tokens, t.kind ≠ .openParen ∧ t.kind ≠ .closeParen) ∧
      c.listing.tokens.countP (fun t => decide (t.kind = .leaf .endMarker)) = 1 ∧
      (∀ node ∈ c.tree.nodes, ∀ p ∈ node.lastpos, (c.tree.follow.find? p).isSome = true) ∧
      (∀ s ∈ c.dfa.states, ∀ p ∈ s.members,
        p = c.tree.endPosition ∨ ∃ x, c.tree.symbolAt? p = some (.char x)) ∧
      c.dfa.WellFormed ∧
      ∀ m, .dfaMove m ∈ c.steps → c.dfa.transition? m.source m.symbol = some m.target := by
  refine ⟨tryThompson_eq cs, trySyntaxTree_eq cs, fun c hc => ?_, fun c hc => ?_⟩
  · obtain ⟨listing, -, rfl⟩ := exists_listing_of_thompson hc
    have wf := listing.expression.built_toNfa.wellFormed
    refine ⟨fun _ => Postfix.kind_of_mem_tokens, wf,
      wf.explored.wellFormed_toDfa Nfa.subsetMoves_deterministic, fun m hm => ?_⟩
    exact wf.explored.transition?_of_mem_moves Nfa.subsetMoves_deterministic
      (ThompsonConversion.mem_moves_of_mem_steps hm)
  · obtain ⟨listing, hlisting, rfl⟩ := exists_listing_of_syntaxTree hc
    obtain ⟨e, hexpresses, hexpression⟩ := Postfix.exists_expresses_of_augmentedOfText hlisting
    have hexplored := SyntaxTree.explored_exploration listing.expression
    refine ⟨fun _ => Postfix.kind_of_mem_tokens, Postfix.countP_endMarker hlisting,
      fun node hnode p hp => ?_, fun s hs p hp => ?_,
      hexplored.wellFormed_toDfa SyntaxTree.positionMoves_unique, fun m hm => ?_⟩
    · obtain ⟨leaf, hleaf, hmark⟩ := PositionTree.exists_mark_of_node hnode (.inr hp)
      exact PositionTree.isSome_followTable hleaf hmark
    · have hposition := @SyntaxTree.position_of_mem_members e hexpresses.endMarker_not_mem s
      rw [SyntaxTree.augmented, ← hexpression] at hposition
      exact hposition hs hp
    · exact hexplored.transition?_of_mem_moves SyntaxTree.positionMoves_unique
        (SyntaxTreeConversion.mem_moves_of_mem_steps hm)

/-- The listing of `ε|a`. -/
def choiceListing : Postfix :=
  ⟨[⟨.leaf .epsilon, 0⟩, ⟨.leaf (.char 'a'), 2⟩, ⟨.operator .union, 1⟩],
    .union (.leaf .epsilon) (.leaf (.char 'a'))⟩

/-- The listing of `(ε|a)` and the end marker behind it. -/
def augmentedChoiceListing : Postfix :=
  ⟨choiceListing.items ++ [⟨.leaf .endMarker, 3⟩, ⟨.operator .concat, 3⟩],
    .concat choiceListing.expression (.leaf .endMarker)⟩

/-- An empty group is an error that is reported, and position 1, that of `ε`, is in no state. -/
theorem conversions_have_no_lapse_choice :
    tryThompson "a()".toList = .ok (.error (.missingOperand '.' 1)) ∧
    thompson "ε|a".toList = .ok (.ofPostfix choiceListing) ∧
    tryThompson "ε|a".toList = .ok (.ok (ThompsonConversion.ofPostfix choiceListing).outcome) ∧
    (ThompsonConversion.ofPostfix choiceListing).dfa.WellFormed ∧
    syntaxTree "ε|a".toList = .ok (.ofPostfix augmentedChoiceListing) ∧
    trySyntaxTree "ε|a".toList =
      .ok (.ok (SyntaxTreeConversion.ofPostfix augmentedChoiceListing).outcome) ∧
    ∀ s ∈ (SyntaxTreeConversion.ofPostfix augmentedChoiceListing).dfa.states, 1 ∉ s.members := by
  have hempty : thompson "a()".toList = .error (.missingOperand '.' 1) := by
    have hread : Postfix.ofText "a()".toList = .error (.missingOperand '.' 1) := by decide
    rw [thompson, hread]
  have hlisting : Postfix.ofText "ε|a".toList = .ok choiceListing := by decide
  have haugmented : Postfix.augmentedOfText "ε|a".toList = .ok augmentedChoiceListing := by decide
  have h : thompson "ε|a".toList = .ok (.ofPostfix choiceListing) := by rw [thompson, hlisting]
  have h' : syntaxTree "ε|a".toList = .ok (.ofPostfix augmentedChoiceListing) := by
    rw [syntaxTree, haugmented]
  obtain ⟨hreported, -⟩ := conversions_have_no_lapse "a()".toList
  obtain ⟨htry, htry', hthompson, htree⟩ := conversions_have_no_lapse "ε|a".toList
  obtain ⟨-, -, wellFormed, -⟩ := hthompson _ h
  obtain ⟨-, -, -, hmembers, -, -⟩ := htree _ h'
  rw [hempty] at hreported
  rw [h] at htry
  rw [h'] at htry'
  refine ⟨hreported, h, htry, wellFormed, h', htry', fun s hs hone => ?_⟩
  have hend : (SyntaxTreeConversion.ofPostfix augmentedChoiceListing).tree.endPosition = 3 := by
    decide
  have hsymbol : (SyntaxTreeConversion.ofPostfix augmentedChoiceListing).tree.symbolAt? 1 =
      some .epsilon := by decide
  rcases hmembers s hs 1 hone with hposition | ⟨c, hc⟩
  · rw [hend] at hposition
    exact absurd hposition (by decide)
  · rw [hsymbol] at hc
    cases hc

end FormalLang
