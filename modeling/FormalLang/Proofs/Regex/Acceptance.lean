import FormalLang.Proofs.Regex.Reading

/-!
# The front end accepts what is written

A text is accepted exactly if it is written for an expression, and then its listing is that of this
expression (`Postfix.ofText_accepts_iff_expresses`).  That nothing else is accepted is
`Postfix.expresses_of_ofText`; here it is shown that every pass lets the tokens of a phrase through.

* **Parentheses.**  The check returns from a phrase with the groups that were open before it.
* **Operators.**  Behind a phrase an operand has ended, whatever stood before the phrase.  The
  concatenations that were put in stand in front of operands, where no operator misses one.
* **Operands.**  Reading the listing of an expression gives this expression.

The first two hold of outlines just as well, so that it is the last pass alone which tells empty
groups from expressions (`checks_iff_outlined`).
-/

namespace FormalLang

/-! ## 1. Characters -/

namespace Token

theorem ofChar_of_charIs {c : Char} {k : TokenKind} (h : CharIs c k) (position : Nat) :
    ofChar c position = .ok ⟨k, position⟩ := by
  cases h with
  | openParen => rfl
  | closeParen => rfl
  | union => rfl
  | star => rfl
  | epsilon => rfl
  | char halphanumeric hne =>
    -- none of the characters that have a meaning of their own is alphanumeric
    have hspecial : ∀ d, Text.isAlphanumeric d = false → c ≠ d := by
      rintro d hd rfl
      rw [hd] at halphanumeric
      contradiction
    simp only [ofChar, hspecial '(' (by decide), hspecial ')' (by decide),
      hspecial '|' (by decide), hspecial '*' (by decide), hne,
      hspecial endMarkerChar (by decide), halphanumeric, if_true, if_false]

/-- **The scan goes through** if every character is a token. -/
theorem exists_scanFrom {cs : List Char} {ks : List TokenKind} (h : List.Forall₂ CharIs cs ks) :
    ∀ position, ∃ tokens, scanFrom position cs = .ok tokens ∧ tokens.map kind = ks := by
  induction h with
  | nil => exact fun _ => ⟨[], rfl, rfl⟩
  | @cons c k cs ks hc _ ih =>
    intro position
    obtain ⟨tokens, hscan, rfl⟩ := ih (position + 1)
    refine ⟨⟨k, position⟩ :: tokens, ?_, rfl⟩
    rw [scanFrom, ofChar_of_charIs hc, hscan]

end Token

/-! ## 2. Checks -/

variable {p : Phrase} {ks : List TokenKind} {l : List Entry} {n : Nat}

/-- **The parentheses of a phrase match.** -/
theorem checkParens_append_of_outlined (h : Outlined p ks l n) : ∀ {tokens : List Token},
    tokens.map Token.kind = ks → ∀ (opened : List Nat) (rest : List Token),
      Postfix.checkParens opened (tokens ++ rest) = Postfix.checkParens opened rest := by
  induction h with
  | leaf s =>
    intro tokens htokens opened rest
    obtain ⟨position, rfl⟩ := Postfix.eq_singleton_of_map_kind htokens
    exact checkParens_cons _ _ _
  | empty =>
    intro tokens htokens opened rest
    obtain ⟨⟨_, _⟩, _, rfl, rfl, hclosing⟩ := List.map_eq_cons_iff.mp htokens
    obtain ⟨_, rfl⟩ := Postfix.eq_singleton_of_map_kind hclosing
    simp only [List.cons_append, List.nil_append, checkParens_cons]
  | group _ ih =>
    intro tokens htokens opened rest
    obtain ⟨⟨_, _⟩, _, rfl, rfl, hinside⟩ := List.map_eq_cons_iff.mp htokens
    obtain ⟨inner, _, rfl, rfl, hclosing⟩ := List.map_eq_append_iff.mp hinside
    obtain ⟨_, rfl⟩ := Postfix.eq_singleton_of_map_kind hclosing
    rw [List.cons_append, checkParens_cons]
    dsimp only
    rw [List.append_assoc, ih rfl, List.singleton_append, checkParens_cons]
  | ofAtom _ ih => exact ih
  | star _ ih =>
    intro tokens htokens opened rest
    obtain ⟨inner, _, rfl, rfl, hlast⟩ := List.map_eq_append_iff.mp htokens
    obtain ⟨_, rfl⟩ := Postfix.eq_singleton_of_map_kind hlast
    rw [List.append_assoc, ih rfl, List.singleton_append, checkParens_cons]
  | ofFactor _ ih => exact ih
  | concat _ _ ihl ihr =>
    intro tokens htokens opened rest
    obtain ⟨left, right, rfl, rfl, rfl⟩ := List.map_eq_append_iff.mp htokens
    rw [List.append_assoc, ihl rfl, ihr rfl]
  | ofTerm _ ih => exact ih
  | union _ _ ihl ihr =>
    intro tokens htokens opened rest
    obtain ⟨left, _, rfl, rfl, hright⟩ := List.map_eq_append_iff.mp htokens
    obtain ⟨⟨_, _⟩, right, rfl, rfl, rfl⟩ := List.map_eq_cons_iff.mp hright
    rw [List.append_assoc, ihl rfl, List.cons_append, checkParens_cons]
    exact ihr rfl opened rest

/-- **The operators of a phrase have their operands**, and behind it an operand has ended. -/
theorem complete_append_of_outlined (h : Outlined p ks l n) : ∀ {later : List TokenKind},
    Complete true later → ∀ afterOperand, Complete afterOperand (ks ++ later) := by
  induction h with
  | leaf s => exact fun hlater _ => ⟨rfl, hlater⟩
  | empty => exact fun hlater _ => ⟨rfl, rfl, hlater⟩
  | group _ ih =>
    intro later hlater afterOperand
    rw [List.cons_append, List.append_assoc]
    have hclosing : Complete true (.closeParen :: later) := ⟨rfl, hlater⟩
    exact ⟨rfl, ih hclosing false⟩
  | ofAtom _ ih => exact ih
  | star _ ih =>
    intro later hlater afterOperand
    rw [List.append_assoc]
    have hstar : Complete true (.operator .star :: later) := ⟨rfl, hlater⟩
    exact ih hstar afterOperand
  | ofFactor _ ih => exact ih
  | concat _ _ ihl ihr =>
    intro later hlater afterOperand
    rw [List.append_assoc]
    exact ihl (ihr hlater true) afterOperand
  | ofTerm _ ih => exact ih
  | union _ hr ihl ihr =>
    intro later hlater afterOperand
    rw [List.append_assoc, List.cons_append]
    obtain ⟨k, rest, rfl, hk⟩ := hr.starts
    have hunion : Complete true (.operator .union :: (k :: rest ++ later)) :=
      ⟨hk, ihr hlater false⟩
    exact ihl hunion afterOperand

theorem checkOperators_cons {token : Token} {rest : List Token} {afterOperand : Bool}
    (h : Postfix.isComplete afterOperand (rest.head?.any fun next => next.kind.startsOperand)
      token.kind = true) :
    Postfix.checkOperators afterOperand (token :: rest) =
      Postfix.checkOperators token.kind.endsOperand rest := by
  rw [Postfix.checkOperators]
  exact if_pos h

/-- **The check of the operators looks at neighbours only**, the converse of
`complete_of_checkOperators`. -/
theorem checkOperators_of_complete : ∀ {tokens : List Token} {joined afterOperand : Bool},
    Complete afterOperand (tokens.map Token.kind) →
      Postfix.checkOperators afterOperand (Postfix.joinFrom joined tokens) = .ok ()
  | [], _, _, _ => rfl
  | token :: rest, joined, afterOperand, ⟨hcomplete, hrest⟩ => by
    have hnext : ∀ joined, Postfix.checkOperators token.kind.endsOperand
        (Postfix.joinFrom joined rest) = .ok () := fun _ => checkOperators_of_complete hrest
    rw [Postfix.joinFrom]
    split
    · rename_i hjoined
      have hstarts : token.kind.startsOperand = true := (Bool.and_eq_true_iff.mp hjoined).2
      rw [checkOperators_cons rfl, checkOperators_cons (isComplete_of_startsOperand hstarts _ _)]
      exact hnext _
    · rw [checkOperators_cons]
      · exact hnext _
      · cases hk : token.kind with
        | operator op =>
          rw [hk] at hcomplete
          cases op with
          | union =>
            -- no concatenation is put in behind a bar
            rcases rest with _ | ⟨next, rest⟩
            · exact hcomplete
            · exact hcomplete
          | star => exact hcomplete
          | concat => rfl
        | _ => rfl

/-- **Exactly the tokens that outline a listing pass both checks**, the empty text apart. -/
theorem checks_iff_outlined {tokens : List Token}
    (hne : TokenKind.operator .concat ∉ tokens.map Token.kind) :
    Postfix.checkParens [] tokens = .ok () ∧
        Postfix.checkOperators false (Postfix.insertConcat tokens) = .ok () ↔
      tokens = [] ∨ ∃ l n, Outlined .expression (tokens.map Token.kind) l n := by
  constructor
  · rintro ⟨hparens, hoperators⟩
    exact outlined_of_checks hne hparens hoperators
  · rintro (rfl | ⟨l, n, h⟩)
    · exact ⟨rfl, rfl⟩
    · constructor
      · have hparens := checkParens_append_of_outlined h rfl [] []
        rwa [List.append_nil] at hparens
      · rw [Postfix.insertConcat_eq_joinFrom]
        refine checkOperators_of_complete ?_
        have hnothing : Complete true [] := trivial
        have hcomplete := complete_append_of_outlined h hnothing false
        rwa [List.append_nil] at hcomplete

/-! ## 3. The front end -/

/-- **All passes go through** on tokens that are written for an expression. -/
theorem exists_ofTokens_of_written {tokens : List Token} {e : Regex}
    (hne : TokenKind.operator .concat ∉ tokens.map Token.kind)
    (h : Written .expression (tokens.map Token.kind) e) : ∃ p, Postfix.ofTokens tokens = .ok p := by
  obtain ⟨hparens, hoperators⟩ := (checks_iff_outlined hne).mpr (.inr ⟨_, _, h.outlined⟩)
  have hread := Postfix.evaluate_listing_nil (entries_of_outlined h.outlined)
  refine ⟨⟨Postfix.shunt [] (Postfix.insertConcat tokens), e⟩, ?_⟩
  rw [Postfix.ofTokens, hparens]
  simp only [hoperators, hread]

namespace Postfix

theorem exists_ofText_of_expresses {cs : List Char} {e : Regex} (h : TextExpresses cs e) :
    ∃ p, ofText cs = .ok p := by
  obtain ⟨ks, hkinds, hwritten⟩ := h
  obtain ⟨tokens, hscan, rfl⟩ := Token.exists_scanFrom hkinds 0
  obtain ⟨p, hp⟩ := exists_ofTokens_of_written (concat_not_mem_of_charIs hkinds) hwritten
  exact ⟨p, by rw [ofText, Token.scan, hscan]; exact hp⟩

/-- **A text is accepted exactly if it is written for an expression.**  There is one such
expression, and the entries of the listing are its nodes in post-order. -/
theorem ofText_accepts_iff_expresses (cs : List Char) :
    ((∃ p, ofText cs = .ok p) ↔ ∃ e, TextExpresses cs e) ∧
    ∀ p, ofText cs = .ok p → ∃ e, TextExpresses cs e ∧
      (∀ e', TextExpresses cs e' → e' = e) ∧ p.items.map Item.entry = e.listing := by
  refine ⟨⟨?_, ?_⟩, fun p hp => ?_⟩
  · rintro ⟨p, hp⟩
    exact ⟨p.expression, (expresses_of_ofText hp).1⟩
  · rintro ⟨e, he⟩
    exact exists_ofText_of_expresses he
  · obtain ⟨hexpresses, hlisting⟩ := expresses_of_ofText hp
    exact ⟨p.expression, hexpresses, fun e' he' => he'.unique hexpresses, hlisting⟩

/-- `abc|d|e*` groups to the left, and the star takes one operand. -/
theorem ofText_accepts_iff_expresses_runs :
    ∃ p, ofText ['a', 'b', 'c', '|', 'd', '|', 'e', '*'] = .ok p ∧
      TextExpresses ['a', 'b', 'c', '|', 'd', '|', 'e', '*'] (.union (.union (.concat (.concat
        (.leaf (.char 'a')) (.leaf (.char 'b'))) (.leaf (.char 'c'))) (.leaf (.char 'd')))
        (.star (.leaf (.char 'e')))) := by
  have haccepted : ∃ p, ofText ['a', 'b', 'c', '|', 'd', '|', 'e', '*'] = .ok p ∧
      p.items.map Item.entry = [.leaf (.char 'a'), .leaf (.char 'b'), .operator .concat,
        .leaf (.char 'c'), .operator .concat, .leaf (.char 'd'), .operator .union,
        .leaf (.char 'e'), .operator .star, .operator .union] := ⟨_, rfl, rfl⟩
  obtain ⟨p, hp, hitems⟩ := haccepted
  obtain ⟨e, hexpresses, -, hlisting⟩ := (ofText_accepts_iff_expresses _).2 p hp
  refine ⟨p, hp, ?_⟩
  convert hexpresses using 1
  exact Regex.listing_injective (hitems.symm.trans hlisting)

end Postfix

end FormalLang
