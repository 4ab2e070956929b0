import FormalLang.Proofs.Regex.Listing

/-!
# The front end reads what is written

Whatever the front end accepts is written for the expression that it reads
(`Postfix.expresses_of_ofText`), and for no other one (`TextExpresses.unique`).  Behind the
augmentation stands the same expression with the end marker
(`Postfix.exists_expresses_of_augmentedOfText`).

**From checks to phrases.**  The check of the parentheses divides the tokens into groups
(`Balanced`).  Inside a group, the check of the operators lets a phrase grow token by token: it
knows whether a `|` or an operand stands right before the next token (`Spot`, `Part`).  What comes
out is an outline; that it has no empty groups follows from the reading of the listing, which ends
with one expression.
-/

namespace FormalLang

/-! ## 1. Groups -/

/-- Tokens whose parentheses match, none of which is a concatenation. -/
inductive Balanced : List TokenKind → Prop where
  | nil : Balanced []
  | leaf (s : Leaf) {ks : List TokenKind} (h : Balanced ks) : Balanced (.leaf s :: ks)
  | union {ks : List TokenKind} (h : Balanced ks) : Balanced (.operator .union :: ks)
  | star {ks : List TokenKind} (h : Balanced ks) : Balanced (.operator .star :: ks)
  | group {inner ks : List TokenKind} (hinner : Balanced inner) (h : Balanced ks) :
      Balanced (.openParen :: (inner ++ .closeParen :: ks))

/-- Tokens that close some groups: `closing [a, b, c]` is `a ) b ) c`. -/
def closing : List (List TokenKind) → List TokenKind
  | [] => []
  | [ks] => ks
  | ks :: rest => ks ++ .closeParen :: closing rest

theorem closing_cons {ks ks' : List TokenKind} {rest : List (List TokenKind)} :
    closing (ks :: ks' :: rest) = ks ++ .closeParen :: closing (ks' :: rest) := rfl

theorem closing_cons_cons {k : TokenKind} {ks : List TokenKind} {rest : List (List TokenKind)} :
    closing ((k :: ks) :: rest) = k :: closing (ks :: rest) := by
  cases rest with
  | nil => rfl
  | cons ks' rest => rfl

theorem checkParens_cons (opened : List Nat) (token : Token) (rest : List Token) :
    Postfix.checkParens opened (token :: rest) =
      match token.kind with
      | .openParen => Postfix.checkParens (token.position :: opened) rest
      | .closeParen =>
        match opened with
        | [] => .error (.unbalancedParen token.position)
        | _ :: outer => Postfix.checkParens outer rest
      | _ => Postfix.checkParens opened rest := by
  cases opened with
  | nil => rfl
  | cons position outer => rfl

/-- **The check of the parentheses divides the tokens into groups.** -/
theorem balanced_of_checkParens : ∀ {tokens : List Token} {opened : List Nat},
    TokenKind.operator .concat ∉ tokens.map Token.kind →
      Postfix.checkParens opened tokens = .ok () →
      ∃ first rest, (∀ ks ∈ first :: rest, Balanced ks) ∧ rest.length = opened.length ∧
        tokens.map Token.kind = closing (first :: rest)
  | [], [], _, _ => ⟨[], [], by simp [Balanced.nil], rfl, rfl⟩
  | [], _ :: _, _, h => by contradiction
  | ⟨kind, position⟩ :: tokens, opened, hne, h => by
    rw [List.map_cons] at hne ⊢
    have hrest : TokenKind.operator .concat ∉ tokens.map Token.kind :=
      fun hmem => hne (List.mem_cons_of_mem _ hmem)
    rw [checkParens_cons] at h
    rcases kind with s | _ | _ | op
    · obtain ⟨first, rest, hbalanced, hlength, htokens⟩ := balanced_of_checkParens hrest h
      obtain ⟨hfirst, hothers⟩ := List.forall_mem_cons.mp hbalanced
      refine ⟨.leaf s :: first, rest, List.forall_mem_cons.mpr ⟨.leaf s hfirst, hothers⟩, hlength,
        ?_⟩
      rw [htokens, closing_cons_cons]
    · obtain ⟨first, rest, hbalanced, hlength, htokens⟩ := balanced_of_checkParens hrest h
      rcases rest with _ | ⟨second, rest⟩
      · contradiction
      · obtain ⟨hfirst, hothers⟩ := List.forall_mem_cons.mp hbalanced
        obtain ⟨hsecond, hothers⟩ := List.forall_mem_cons.mp hothers
        refine ⟨.openParen :: (first ++ .closeParen :: second), rest,
          List.forall_mem_cons.mpr ⟨.group hfirst hsecond, hothers⟩, Nat.succ.inj hlength, ?_⟩
        rw [htokens, closing_cons, closing_cons_cons]
        cases rest with
        | nil => rfl
        | cons third rest => simp [closing]
    · rcases opened with _ | ⟨_, outer⟩
      · contradiction
      · obtain ⟨first, rest, hbalanced, hlength, htokens⟩ := balanced_of_checkParens hrest h
        refine ⟨[], first :: rest, List.forall_mem_cons.mpr ⟨.nil, hbalanced⟩,
          congrArg Nat.succ hlength, ?_⟩
        rw [htokens]
        rfl
    · obtain ⟨first, rest, hbalanced, hlength, htokens⟩ := balanced_of_checkParens hrest h
      obtain ⟨hfirst, hothers⟩ := List.forall_mem_cons.mp hbalanced
      have hop : Balanced (.operator op :: first) := by
        cases op with
        | star => exact .star hfirst
        | union => exact .union hfirst
        | concat => exact absurd List.mem_cons_self hne
      refine ⟨.operator op :: first, rest, List.forall_mem_cons.mpr ⟨hop, hothers⟩, hlength, ?_⟩
      rw [htokens, closing_cons_cons]

/-! ## 2. Operators next to their operands -/

/-- Whether operators have the neighbours they need. -/
def Complete (afterOperand : Bool) : List TokenKind → Prop
  | [] => True
  | k :: rest => Postfix.isComplete afterOperand (rest.head?.any TokenKind.startsOperand) k = true ∧
      Complete k.endsOperand rest

theorem isComplete_of_startsOperand {k : TokenKind} (h : k.startsOperand = true)
    (afterOperand beforeOperand : Bool) :
    Postfix.isComplete afterOperand beforeOperand k = true := by
  cases k with
  | leaf s => rfl
  | openParen => rfl
  | closeParen => contradiction
  | operator op => contradiction

/-- One step of the check of the operators. -/
theorem isComplete_of_checkOperators {token : Token} {rest : List Token} {afterOperand : Bool}
    (h : Postfix.checkOperators afterOperand (token :: rest) = .ok ()) :
    Postfix.isComplete afterOperand (rest.head?.any fun next => next.kind.startsOperand)
        token.kind = true ∧
      Postfix.checkOperators token.kind.endsOperand rest = .ok () := by
  rw [Postfix.checkOperators] at h
  split at h
  · rename_i hcomplete
    exact ⟨hcomplete, h⟩
  · rename_i hcomplete
    split at h
    · contradiction
    · rename_i hkind
      refine absurd ?_ hcomplete
      cases hk : token.kind with
      | operator op => exact absurd hk (hkind op)
      | _ => rfl

/-- **The check of the operators sees the neighbours in the text**, for a concatenation is put in
front of an operand only. -/
theorem complete_of_checkOperators : ∀ {tokens : List Token} {joined afterOperand : Bool},
    Postfix.checkOperators afterOperand (Postfix.joinFrom joined tokens) = .ok () →
      Complete afterOperand (tokens.map Token.kind)
  | [], _, _, _ => trivial
  | token :: rest, joined, afterOperand, h => by
    rw [Postfix.joinFrom] at h
    split at h
    · rename_i hjoined
      have hstarts : token.kind.startsOperand = true := (Bool.and_eq_true_iff.mp hjoined).2
      obtain ⟨-, h⟩ := isComplete_of_checkOperators h
      obtain ⟨-, h⟩ := isComplete_of_checkOperators h
      exact ⟨isComplete_of_startsOperand hstarts _ _, complete_of_checkOperators h⟩
    · obtain ⟨hcomplete, h⟩ := isComplete_of_checkOperators h
      refine ⟨?_, complete_of_checkOperators h⟩
      cases hk : token.kind with
      | operator op =>
        cases op with
        | union =>
          rw [hk] at hcomplete
          rcases rest with _ | ⟨next, rest⟩
          · exact hcomplete
          · exact hcomplete
        | star =>
          rw [hk] at hcomplete
          exact hcomplete
        | concat => rfl
      | _ => rfl

/-! ## 3. Phrases that grow -/

/-- What stands right before a token. -/
inductive Spot where
  /-- The beginning of a group. -/
  | beginning
  | bar
  | operand
  deriving DecidableEq

/-- Whether an operand stands right before. -/
def Spot.isOperand : Spot → Bool
  | .operand => true
  | _ => false

/-- **What has been read of a group so far.**  Behind an operand it is an expression whose last term
and last factor can still grow. -/
inductive Part : Spot → List TokenKind → Prop where
  | beginning : Part .beginning []
  | bar {ks : List TokenKind} {l : List Entry} {n : Nat} (h : Outlined .expression ks l n) :
      Part .bar (ks ++ [.operator .union])
  | factor {before ks : List TokenKind} {spot : Spot} {l : List Entry} {n : Nat}
      (hbefore : Part spot before) (hspot : spot ≠ .operand) (h : Outlined .factor ks l n) :
      Part .operand (before ++ ks)
  | factorBehind {before ks ks' : List TokenKind} {spot : Spot} {l l' : List Entry} {n n' : Nat}
      (hbefore : Part spot before) (hspot : spot ≠ .operand) (hterm : Outlined .term ks l n)
      (h : Outlined .factor ks' l' n') : Part .operand (before ++ (ks ++ ks'))

/-- The last term of what has been read, and what is before it. -/
theorem Part.exists_term {ks : List TokenKind} (h : Part .operand ks) :
    ∃ spot before term l n, Part spot before ∧ spot ≠ .operand ∧ Outlined .term term l n ∧
      ks = before ++ term := by
  cases h with
  | factor hbefore hspot h => exact ⟨_, _, _, _, _, hbefore, hspot, .ofFactor h, rfl⟩
  | factorBehind hbefore hspot hterm h =>
    exact ⟨_, _, _, _, _, hbefore, hspot, .concat hterm h, rfl⟩

theorem Part.expression {ks : List TokenKind} (h : Part .operand ks) :
    ∃ l n, Outlined .expression ks l n := by
  obtain ⟨spot, before, term, l, n, hbefore, hspot, hterm, rfl⟩ := h.exists_term
  cases hbefore with
  | beginning => exact ⟨_, _, .ofTerm hterm⟩
  | bar hexpression =>
    have hunion := hexpression.union hterm
    rw [← List.singleton_append, ← List.append_assoc] at hunion
    exact ⟨_, _, hunion⟩
  | factor _ _ _ => exact absurd rfl hspot
  | factorBehind _ _ _ _ => exact absurd rfl hspot

/-- An operand can stand anywhere. -/
theorem Part.atom {spot : Spot} {ks ks' : List TokenKind} {l : List Entry} {n : Nat}
    (h : Part spot ks) (hatom : Outlined .atom ks' l n) : Part .operand (ks ++ ks') := by
  by_cases hspot : spot = .operand
  · subst hspot
    obtain ⟨spot, before, term, _, _, hbefore, hspot, hterm, rfl⟩ := h.exists_term
    rw [List.append_assoc]
    exact .factorBehind hbefore hspot hterm (.ofAtom hatom)
  · exact .factor h hspot (.ofAtom hatom)

theorem Part.star {ks : List TokenKind} (h : Part .operand ks) :
    Part .operand (ks ++ [.operator .star]) := by
  cases h with
  | factor hbefore hspot h =>
    rw [List.append_assoc]
    exact .factor hbefore hspot h.star
  | factorBehind hbefore hspot hterm h =>
    rw [List.append_assoc, List.append_assoc]
    exact .factorBehind hbefore hspot hterm h.star

/-- Whether what comes next fits: behind a bar it is an operand. -/
def Fits (spot : Spot) (next : List TokenKind) : Prop :=
  spot = .bar → next.head?.any TokenKind.startsOperand = true

/-- **What has been read grows by the tokens of a group.** -/
theorem Balanced.part {ks : List TokenKind} (h : Balanced ks) :
    ∀ {spot : Spot} {front later : List TokenKind}, Part spot front → Fits spot (ks ++ later) →
      Complete spot.isOperand (ks ++ later) →
      ∃ spot', Part spot' (front ++ ks) ∧ Fits spot' later ∧ Complete spot'.isOperand later := by
  induction h with
  | nil =>
    intro spot front later hpart hfits hcomplete
    rw [List.append_nil]
    exact ⟨spot, hpart, hfits, hcomplete⟩
  | leaf s _ ih =>
    intro spot front later hpart _ hcomplete
    have hnext := ih (hpart.atom (.leaf s)) nofun hcomplete.2
    rw [List.append_assoc] at hnext
    exact hnext
  | union _ ih =>
    intro spot front later hpart _ hcomplete
    obtain ⟨hneighbours, hrest⟩ := hcomplete
    obtain ⟨hoperand, hstarts⟩ := Bool.and_eq_true_iff.mp hneighbours
    cases spot with
    | operand =>
      obtain ⟨l, n, hexpression⟩ := hpart.expression
      have hnext := ih (.bar hexpression) (fun _ => hstarts) hrest
      rw [List.append_assoc] at hnext
      exact hnext
    | beginning => contradiction
    | bar => contradiction
  | star _ ih =>
    intro spot front later hpart _ hcomplete
    obtain ⟨hoperand, hrest⟩ := hcomplete
    cases spot with
    | operand =>
      have hnext := ih hpart.star nofun hrest
      rw [List.append_assoc] at hnext
      exact hnext
    | beginning => contradiction
    | bar => contradiction
  | @group inner ks _ _ ihinner ih =>
    intro spot front later hpart _ hcomplete
    rw [List.cons_append, List.append_assoc, List.cons_append] at hcomplete
    obtain ⟨spot', hinner, hfits, hclose⟩ := ihinner .beginning nofun hcomplete.2
    have hatom : ∃ l n, Outlined .atom (.openParen :: (inner ++ [.closeParen])) l n := by
      cases spot' with
      | beginning =>
        cases hinner
        exact ⟨_, _, .empty⟩
      | bar => exact absurd (hfits rfl) Bool.false_ne_true
      | operand =>
        obtain ⟨l, n, hexpression⟩ := hinner.expression
        exact ⟨l, n, .group hexpression⟩
    obtain ⟨l, n, hatom⟩ := hatom
    have hnext := ih (hpart.atom hatom) nofun hclose.2
    simp only [List.append_assoc, List.cons_append, List.nil_append] at hnext
    exact hnext

/-! ## 4. The passes together -/

/-- **Tokens that pass the checks are empty or outline a listing.** -/
theorem outlined_of_checks {tokens : List Token}
    (hne : TokenKind.operator .concat ∉ tokens.map Token.kind)
    (hparens : Postfix.checkParens [] tokens = .ok ())
    (hoperators : Postfix.checkOperators false (Postfix.insertConcat tokens) = .ok ()) :
    tokens = [] ∨ ∃ l n, Outlined .expression (tokens.map Token.kind) l n := by
  obtain ⟨ks, rest, hbalanced, hlength, htokens⟩ := balanced_of_checkParens hne hparens
  obtain rfl := List.eq_nil_of_length_eq_zero hlength
  rw [Postfix.insertConcat_eq_joinFrom] at hoperators
  have hcomplete := complete_of_checkOperators hoperators
  rw [← List.append_nil (tokens.map Token.kind), htokens] at hcomplete
  obtain ⟨spot, hpart, hfits, -⟩ :=
    (hbalanced ks List.mem_cons_self).part .beginning nofun hcomplete
  rw [htokens]
  cases spot with
  | beginning =>
    left
    rw [List.nil_append] at hpart
    cases hpart
    exact List.map_eq_nil_iff.mp htokens
  | bar => exact absurd (hfits rfl) Bool.false_ne_true
  | operand => exact .inr hpart.expression

/-- **What the passes accept is written for the expression that they read.** -/
theorem written_of_ofTokens {tokens : List Token} {p : Postfix}
    (hne : TokenKind.operator .concat ∉ tokens.map Token.kind)
    (h : Postfix.ofTokens tokens = .ok p) :
    Written .expression (tokens.map Token.kind) p.expression ∧
      p.items.map Item.entry = p.expression.listing := by
  unfold Postfix.ofTokens at h
  split at h
  · contradiction
  · rename_i hparens
    dsimp only at h
    split at h
    · contradiction
    · rename_i hoperators
      split at h
      · contradiction
      · contradiction
      · rename_i e below hread
        obtain rfl := Except.ok.inj h
        rcases outlined_of_checks hne hparens hoperators with rfl | ⟨l, n, houtlined⟩
        · have hnil : ([] : List Regex) = e :: below := Except.ok.inj hread
          contradiction
        · have hentries := entries_of_outlined houtlined
          have hlength := Postfix.length_of_evaluate hread
          have hcount := houtlined.count
          rw [hentries, List.length_cons, List.length_nil] at hlength
          obtain ⟨e', hwritten, rfl⟩ := houtlined.written (by omega)
          have hread' := Postfix.evaluate_listing_nil hentries
          rw [hread'] at hread
          obtain ⟨rfl, -⟩ := List.cons.inj (Except.ok.inj hread)
          exact ⟨hwritten, hentries⟩

/-! ## 5. Texts -/

namespace Postfix

/-- **A text that is accepted is written for its expression**, and its listing is that of the
expression. -/
theorem expresses_of_ofText {cs : List Char} {p : Postfix} (h : ofText cs = .ok p) :
    TextExpresses cs p.expression ∧ p.items.map Item.entry = p.expression.listing := by
  unfold ofText at h
  split at h
  · contradiction
  · rename_i tokens htokens
    have hkinds := Token.kinds_of_scanFrom htokens
    obtain ⟨hwritten, hlisting⟩ := written_of_ofTokens (concat_not_mem_of_charIs hkinds) h
    exact ⟨⟨_, hkinds, hwritten⟩, hlisting⟩

theorem concat_not_mem_augmentTokens {tokens : List Token}
    (hne : TokenKind.operator .concat ∉ tokens.map Token.kind) (length : Nat) :
    TokenKind.operator .concat ∉ (augmentTokens length tokens).map Token.kind := by
  simpa [augmentTokens] using hne

/-- What is written for an expression is written, in parentheses and with the end marker behind it,
for the expression with the end marker. -/
theorem written_augmentTokens {tokens : List Token} {e : Regex}
    (h : Written .expression (tokens.map Token.kind) e) (length : Nat) :
    Written .expression ((augmentTokens length tokens).map Token.kind)
      (.concat e (.leaf .endMarker)) := by
  have hkinds : (augmentTokens length tokens).map Token.kind =
      (.openParen :: (tokens.map Token.kind ++ [.closeParen])) ++ [.leaf .endMarker] := by
    simp [augmentTokens]
  rw [hkinds]
  exact .ofTerm (.concat (.ofFactor (.ofAtom (.group h))) (.ofAtom (.leaf .endMarker)))

/-- **Behind the augmentation stands the expression of the text**, and then the end marker. -/
theorem exists_expresses_of_augmentedOfText {cs : List Char} {p : Postfix}
    (h : augmentedOfText cs = .ok p) :
    ∃ e, TextExpresses cs e ∧ p.expression = .concat e (.leaf .endMarker) := by
  unfold augmentedOfText at h
  split at h
  · contradiction
  · rename_i tokens htokens
    split at h
    · contradiction
    · rename_i inner hinner
      have hkinds := Token.kinds_of_scanFrom htokens
      have hne := concat_not_mem_of_charIs hkinds
      obtain ⟨hwritten, -⟩ := written_of_ofTokens hne hinner
      obtain ⟨hwhole, -⟩ := written_of_ofTokens (concat_not_mem_augmentTokens hne cs.length) h
      exact ⟨inner.expression, ⟨_, hkinds, hwritten⟩,
        hwhole.unique (written_augmentTokens hwritten cs.length)⟩

end Postfix

/-- **A text is written for one expression at most.** -/
theorem TextExpresses.unique {cs : List Char} {e e' : Regex} (h : TextExpresses cs e)
    (h' : TextExpresses cs e') : e = e' := by
  obtain ⟨ks, hks, hwritten⟩ := h
  obtain ⟨ks', hks', hwritten'⟩ := h'
  have huniq : Relator.RightUnique CharIs := fun _ _ _ hk hk' => hk.unique hk'
  obtain rfl := List.right_unique_forall₂' huniq hks hks'
  have hkinds : (ks.map fun k => Token.mk k 0).map Token.kind = ks := by
    rw [List.map_map]
    exact List.map_id ks
  rw [← hkinds] at hwritten hwritten'
  exact hwritten.unique hwritten'

/-- The language of a text is that of its expression. -/
theorem TextExpresses.denotes_iff {cs : List Char} {e : Regex} (h : TextExpresses cs e)
    {w : List Char} : TextDenotes cs w ↔ e.Matches w := by
  constructor
  · rintro ⟨e', h', hw⟩
    exact h.unique h' ▸ hw
  · exact fun hw => ⟨e, h, hw⟩

end FormalLang
