import FormalLang.Proofs.Regex.Blame

/-!
# Which expressions are empty

A text is rejected as empty exactly if it consists of parentheses that match and no group begins
right behind another one (`emptyExpression_iff_onlyGroups`).  So the groups of the text stand in one
another (`nested`).

* **What is empty.**  A listing without entries is put out by nested groups only
  (`Outlined.nested`), and reading entries never leaves nothing (`Postfix.evaluate_ne_nil`).
* **Groups side by side.**  A concatenation is put in between them like between all operands.  It
  finds no operands, and is reported in place of the empty expression.
-/

namespace FormalLang

variable {cs : List Char} {n : Nat}

/-! ## 1. Groups in one another -/

/-- Groups in one another, to a depth. -/
def nested (depth : Nat) : List Char := List.replicate depth '(' ++ List.replicate depth ')'

/-- Whether a text consists of parentheses that match. -/
def OnlyGroups (cs : List Char) : Prop := Paired cs ∧ ∀ c ∈ cs, c = '(' ∨ c = ')'

theorem nested_succ (n : Nat) : nested (n + 1) = '(' :: (nested n ++ [')']) := by
  rw [nested, nested, List.replicate_succ, List.replicate_succ', List.cons_append,
    List.append_assoc]

theorem onlyGroups_nested : ∀ n, OnlyGroups (nested n)
  | 0 => ⟨.nil, by simp [nested]⟩
  | n + 1 => by
    obtain ⟨hpaired, honly⟩ := onlyGroups_nested n
    rw [nested_succ]
    refine ⟨.group hpaired .nil, fun c hc => ?_⟩
    rcases List.mem_cons.mp hc with rfl | hc
    · exact .inl rfl
    · rcases List.mem_append.mp hc with hc | hc
      · exact honly c hc
      · exact .inr (List.mem_singleton.mp hc)

/-- Behind a `)` of nested groups there is no `(`. -/
theorem not_beside_nested (n : Nat) : ¬ [')', '('] <:+: nested n := by
  have hclosed : (nested n).Pairwise fun c d => c = ')' → d = ')' := by
    rw [nested, List.pairwise_append]
    refine ⟨?_, ?_, ?_⟩
    · exact List.pairwise_replicate.mpr (.inr (by decide))
    · exact List.pairwise_replicate.mpr (.inr fun _ => rfl)
    · exact fun _ _ d hd _ => List.eq_of_mem_replicate hd
  intro hbeside
  have hpair := hclosed.sublist hbeside.sublist
  exact absurd (List.pairwise_pair.mp hpair rfl) (by decide)

/-- A text of groups begins with one. -/
theorem OnlyGroups.eq_cons (h : OnlyGroups cs) (hne : cs ≠ []) : ∃ rest, cs = '(' :: rest := by
  obtain ⟨hpaired, honly⟩ := h
  cases hpaired with
  | nil => exact absurd rfl hne
  | other hopen hclose _ =>
    exact absurd (honly _ List.mem_cons_self) (not_or.mpr ⟨hopen, hclose⟩)
  | group _ _ => exact ⟨_, rfl⟩

/-- **Groups are nested unless two stand side by side.** -/
theorem OnlyGroups.nested (h : OnlyGroups cs) (hbeside : ¬ [')', '('] <:+: cs) :
    ∃ n, cs = nested n := by
  obtain ⟨hpaired, honly⟩ := h
  induction hpaired with
  | nil => exact ⟨0, rfl⟩
  | other hopen hclose _ _ =>
    exact absurd (honly _ List.mem_cons_self) (not_or.mpr ⟨hopen, hclose⟩)
  | @group inner cs hinner hcs ihinner _ =>
    have hinside : ∀ c ∈ inner, c = '(' ∨ c = ')' := fun c hc => honly c (by simp [hc])
    have hbehind : OnlyGroups cs := ⟨hcs, fun c hc => honly c (by simp [hc])⟩
    have hlast : cs = [] := by
      by_contra hne
      obtain ⟨rest, rfl⟩ := hbehind.eq_cons hne
      exact hbeside ⟨'(' :: inner, rest, by simp⟩
    subst hlast
    have hwithin : inner <:+: '(' :: (inner ++ [')']) := ⟨['('], [')'], rfl⟩
    obtain ⟨n, rfl⟩ := ihinner (fun hpair => hbeside (List.IsInfix.trans hpair hwithin)) hinside
    exact ⟨n + 1, (nested_succ n).symm⟩

theorem exists_nested_iff : (∃ n, cs = nested n) ↔ OnlyGroups cs ∧ ¬ [')', '('] <:+: cs := by
  constructor
  · rintro ⟨n, rfl⟩
    exact ⟨onlyGroups_nested n, not_beside_nested n⟩
  · rintro ⟨hgroups, hbeside⟩
    exact hgroups.nested hbeside

/-! ## 2. Listings without entries -/

/-- The characters of tokens that are divided, divided. -/
theorem exists_append_of_charIs {ks ks' : List TokenKind}
    (h : List.Forall₂ CharIs cs (ks ++ ks')) : ∃ front back,
      cs = front ++ back ∧ List.Forall₂ CharIs front ks ∧ List.Forall₂ CharIs back ks' :=
  ⟨_, _, (List.take_append_drop ks.length cs).symm, List.forall₂_take_append _ _ _ h,
    List.forall₂_drop_append _ _ _ h⟩

/-- **Only nested groups outline the listing without entries.** -/
theorem Outlined.nested {p : Phrase} {ks : List TokenKind} {l : List Entry}
    (h : Outlined p ks l n) (hl : l = []) : ∀ {cs : List Char}, List.Forall₂ CharIs cs ks →
      ∃ n, cs = nested n := by
  induction h with
  | leaf s => contradiction
  | empty =>
    intro cs hkinds
    obtain ⟨c, _, hopen, hrest, rfl⟩ := List.forall₂_cons_right_iff.mp hkinds
    obtain ⟨d, _, hclose, hnil, rfl⟩ := List.forall₂_cons_right_iff.mp hrest
    obtain rfl := List.forall₂_nil_right_iff.mp hnil
    cases hopen
    cases hclose
    exact ⟨1, rfl⟩
  | group _ ih =>
    intro cs hkinds
    obtain ⟨c, _, hopen, hrest, rfl⟩ := List.forall₂_cons_right_iff.mp hkinds
    obtain ⟨inner, _, rfl, hinner, hlast⟩ := exists_append_of_charIs hrest
    obtain ⟨d, _, hclose, hnil, rfl⟩ := List.forall₂_cons_right_iff.mp hlast
    obtain rfl := List.forall₂_nil_right_iff.mp hnil
    obtain ⟨n, rfl⟩ := ih hl hinner
    cases hopen
    cases hclose
    exact ⟨n + 1, (nested_succ n).symm⟩
  | ofAtom _ ih => exact ih hl
  | star _ _ => exact absurd hl (List.append_ne_nil_of_right_ne_nil _ (List.cons_ne_nil _ _))
  | ofFactor _ ih => exact ih hl
  | concat _ _ _ _ =>
    exact absurd hl (List.append_ne_nil_of_right_ne_nil _ (List.cons_ne_nil _ _))
  | ofTerm _ ih => exact ih hl
  | union _ _ _ _ =>
    exact absurd hl (List.append_ne_nil_of_right_ne_nil _ (List.cons_ne_nil _ _))

/-- Nested groups outline it, and are one empty group to the count. -/
theorem outlined_nested : ∀ n, ∃ ks,
    List.Forall₂ CharIs (nested (n + 1)) ks ∧ Outlined .atom ks [] 1
  | 0 => ⟨_, .cons .openParen (.cons .closeParen .nil), .empty⟩
  | n + 1 => by
    obtain ⟨ks, hkinds, houtlined⟩ := outlined_nested n
    rw [nested_succ]
    have hclosed := List.rel_append hkinds (List.Forall₂.cons CharIs.closeParen .nil)
    exact ⟨_, .cons .openParen hclosed, .group (.ofTerm (.ofFactor (.ofAtom houtlined)))⟩

namespace Postfix

/-- Reading entries leaves something. -/
theorem evaluate_ne_nil : ∀ {items : List Item} {stack left : List Regex},
    evaluate stack items = .ok left → stack ≠ [] ∨ items ≠ [] → left ≠ []
  | [], stack, left, h, hne => by
    obtain rfl := Except.ok.inj h
    exact hne.resolve_right fun hnil => hnil rfl
  | ⟨.leaf s, _⟩ :: rest, stack, left, h, _ =>
    @evaluate_ne_nil rest _ _ h (.inl (List.cons_ne_nil _ _))
  | ⟨.operator .star, _⟩ :: rest, e :: stack, left, h, _ =>
    @evaluate_ne_nil rest _ _ h (.inl (List.cons_ne_nil _ _))
  | ⟨.operator .concat, _⟩ :: rest, r :: l :: stack, left, h, _ =>
    @evaluate_ne_nil rest _ _ h (.inl (List.cons_ne_nil _ _))
  | ⟨.operator .union, _⟩ :: rest, r :: l :: stack, left, h, _ =>
    @evaluate_ne_nil rest _ _ h (.inl (List.cons_ne_nil _ _))

/-! ## 3. The front end -/

variable {tokens : List Token}

/-- Tokens that outline a listing without entries are empty. -/
theorem ofTokens_of_outlined_nil (hne : TokenKind.operator .concat ∉ tokens.map Token.kind)
    (h : Outlined .expression (tokens.map Token.kind) [] n) :
    ofTokens tokens = .error .emptyExpression := by
  obtain ⟨hparens, hoperators⟩ := (checks_iff_outlined hne).mpr (.inr ⟨_, _, h⟩)
  have hitems := List.map_eq_nil_iff.mp (entries_of_outlined h)
  rw [ofTokens, hparens]
  simp only [hoperators, hitems, evaluate]

/-- No other tokens are, apart from none at all. -/
theorem outlined_nil_of_ofTokens (hscan : Token.scan cs = .ok tokens)
    (h : ofTokens tokens = .error .emptyExpression) :
    tokens = [] ∨ ∃ n, Outlined .expression (tokens.map Token.kind) [] n := by
  have hne := concat_not_mem_of_charIs (Token.kinds_of_scanFrom hscan)
  rw [ofTokens] at h
  rcases lone_of_checkParens hscan with ⟨hparens, -⟩ | ⟨q, herror, -⟩ | ⟨q, herror, -⟩
  · rw [hparens] at h
    dsimp only at h
    rcases incomplete_of_checkOperators hscan with ⟨hoperators, -⟩ | ⟨c, p, herror, -⟩
    · rw [hoperators] at h
      dsimp only at h
      split at h
      · rename_i hread
        obtain ⟨item, -, op, -, hblamed⟩ := exists_operator_of_evaluate hread
        rw [hblamed] at h
        cases h
      · rename_i hread
        rcases outlined_of_checks hne hparens hoperators with hnil | ⟨l, n, houtlined⟩
        · exact .inl hnil
        · have hitems : shunt [] (insertConcat tokens) = [] := by
            by_contra hsome
            exact evaluate_ne_nil hread (.inr hsome) rfl
          have hentries := entries_of_outlined houtlined
          rw [hitems] at hentries
          obtain rfl : [] = l := hentries
          exact .inr ⟨n, houtlined⟩
      · contradiction
    · rw [herror] at h
      cases h
  · rw [herror] at h
    cases h
  · rw [herror] at h
    cases h

/-- **Exactly the nested groups are empty.** -/
theorem ofText_eq_emptyExpression_iff :
    ofText cs = .error .emptyExpression ↔ ∃ n, cs = nested n := by
  constructor
  · intro h
    rw [ofText] at h
    rcases Token.foreign_of_scan cs with ⟨tokens, hscan, -⟩ | ⟨c, p, hscan, -⟩
    · rw [hscan] at h
      have hkinds := Token.kinds_of_scanFrom hscan
      rcases outlined_nil_of_ofTokens hscan h with rfl | ⟨n, houtlined⟩
      · exact ⟨0, List.forall₂_nil_right_iff.mp hkinds⟩
      · exact houtlined.nested rfl hkinds
    · rw [hscan] at h
      have hscanned := Except.error.inj h
      split at hscanned
      · contradiction
      · contradiction
  · rintro ⟨_ | n, rfl⟩
    · rfl
    · obtain ⟨ks, hkinds, houtlined⟩ := outlined_nested n
      obtain ⟨tokens, hscan, rfl⟩ := Token.exists_scanFrom hkinds 0
      rw [ofText, Token.scan, hscan]
      exact ofTokens_of_outlined_nil (concat_not_mem_of_charIs hkinds)
        (.ofTerm (.ofFactor (.ofAtom houtlined)))

end Postfix

/-- Every expression has a leaf. -/
theorem Regex.exists_mem_leaves : ∀ e : Regex, ∃ s, s ∈ e.leaves
  | .leaf s => ⟨s, List.mem_singleton_self s⟩
  | .concat l _ => (exists_mem_leaves l).imp fun _ hs => List.mem_append_left _ hs
  | .union l _ => (exists_mem_leaves l).imp fun _ hs => List.mem_append_left _ hs
  | .star e => exists_mem_leaves e

/-- No expression is written with parentheses only. -/
theorem OnlyGroups.not_expresses (h : OnlyGroups cs) (e : Regex) : ¬ TextExpresses cs e := by
  rintro ⟨ks, hkinds, hwritten⟩
  obtain ⟨s, hs⟩ := e.exists_mem_leaves
  obtain ⟨c, hc, hkind⟩ := exists_charIs_of_mem hkinds (hwritten.leaf_mem hs)
  have hparen : Text.isAlphanumeric c = false ∧ c ≠ epsilonChar := by
    rcases h.2 c hc with rfl | rfl
    · decide
    · decide
  cases hkind with
  | epsilon => exact hparen.2 rfl
  | char halphanumeric _ => exact absurd halphanumeric (Bool.eq_false_iff.mp hparen.1)

/-- Groups side by side are blamed for a concatenation. -/
theorem OnlyGroups.eq_joined (h : OnlyGroups cs) {e : RegexError} (he : Blames cs e) :
    ∃ p, cs[p]? = some '(' ∧ e = .missingOperand Operator.concat.toChar p := by
  have hparen : ∀ {i : Nat} {c : Char}, cs[i]? = some c → c = '(' ∨ c = ')' :=
    fun hi => h.2 _ (List.mem_of_getElem? hi)
  have hoperator : ∀ {i : Nat} {c : Char}, cs[i]? = some c → ¬ (c = '|' ∨ c = '*') := by
    intro i c hi
    rcases hparen hi with rfl | rfl
    · decide
    · decide
  have htoken : ∀ i, ¬ ForeignAt cs i := by
    rintro i ⟨c, hi, hnone⟩
    rcases hparen hi with rfl | rfl
    · exact hnone _ .openParen
    · exact hnone _ .closeParen
  have hpartner : ∀ {i : Nat} {c : Char}, ¬ LoneAt c cs i :=
    fun hlone => hlone.2 (h.1.hasPartner (hparen hlone.1) hlone.1)
  have hcomplete : ∀ i, ¬ IncompleteAt cs i := by
    rintro i (⟨hi | hi, -⟩ | ⟨hi, -⟩)
    · exact hoperator hi (.inl rfl)
    · exact hoperator hi (.inr rfl)
    · exact hoperator hi (.inl rfl)
  cases he with
  | reserved hleast _ => exact absurd hleast.1 (htoken _)
  | invalid hleast _ _ => exact absurd hleast.1 (htoken _)
  | closing _ hleast => exact absurd hleast.1 hpartner
  | opening _ _ hgreatest => exact absurd hgreatest.1 hpartner
  | incomplete _ _ hleast _ => exact absurd hleast.1 (hcomplete _)
  | written _ _ _ _ hop hp => exact absurd hop (hoperator hp)
  | joined _ _ _ _ hstarts hp =>
    rcases hparen hp with rfl | rfl
    · exact ⟨_, hp, rfl⟩
    · exact absurd hstarts (by decide)

/-- **A text is empty exactly if it consists of groups and no two of them stand side by side.**

With the end marker behind it, it is empty exactly if it is without.  A text of groups of which two
stand side by side is not reported as empty: an operand is missing at a concatenation, which was put
in before a group. -/
theorem emptyExpression_iff_onlyGroups (cs : List Char) :
    (Postfix.ofText cs = .error .emptyExpression ↔ OnlyGroups cs ∧ ¬ [')', '('] <:+: cs) ∧
    (Postfix.augmentedOfText cs = .error .emptyExpression ↔
      OnlyGroups cs ∧ ¬ [')', '('] <:+: cs) ∧
    (OnlyGroups cs ∧ [')', '('] <:+: cs → ∃ p, cs[p]? = some '(' ∧
      Postfix.ofText cs = .error (.missingOperand Operator.concat.toChar p) ∧
      Postfix.augmentedOfText cs = .error (.missingOperand Operator.concat.toChar p)) := by
  have hempty : Postfix.ofText cs = .error .emptyExpression ↔
      OnlyGroups cs ∧ ¬ [')', '('] <:+: cs :=
    Postfix.ofText_eq_emptyExpression_iff.trans exists_nested_iff
  have haugmented : ∀ e, Postfix.augmentedOfText cs = .error e ↔ Postfix.ofText cs = .error e := by
    intro e
    rw [Postfix.augmentedOfText_eq, map_eq_error_iff]
  refine ⟨hempty, (haugmented _).trans hempty, ?_⟩
  rintro ⟨hgroups, hbeside⟩
  cases hread : Postfix.ofText cs with
  | ok p => exact absurd (Postfix.expresses_of_ofText hread).1 (hgroups.not_expresses _)
  | error e =>
    have hne : e ≠ .emptyExpression := by
      rintro rfl
      exact (hempty.mp hread).2 hbeside
    obtain ⟨p, hp, rfl⟩ := hgroups.eq_joined (Postfix.blames_of_ofText hread hne)
    exact ⟨p, hp, rfl, (haugmented _).mpr hread⟩

/-- Groups in one another are empty.  In `(()())` two of them stand side by side. -/
theorem emptyExpression_iff_onlyGroups_inside :
    Postfix.augmentedOfText "((()))".toList = .error .emptyExpression ∧
    ∃ p, "(()())".toList[p]? = some '(' ∧
      Postfix.ofText "(()())".toList = .error (.missingOperand '.' p) ∧
      Postfix.augmentedOfText "(()())".toList = .error (.missingOperand '.' p) := by
  have hgroups : OnlyGroups "((()))".toList := onlyGroups_nested 3
  have hbeside : OnlyGroups "(()())".toList := ⟨.group (.group .nil (.group .nil .nil)) .nil,
    by simp⟩
  obtain ⟨-, hempty, -⟩ := emptyExpression_iff_onlyGroups "((()))".toList
  obtain ⟨-, -, hjoined⟩ := emptyExpression_iff_onlyGroups "(()())".toList
  exact ⟨hempty.mpr ⟨hgroups, by decide⟩, hjoined ⟨hbeside, ['(', '('], [')', ')'], rfl⟩⟩

/-- `()()` consists of matching parentheses only, and is not reported as empty. -/
theorem onlyGroups_not_emptyExpression : OnlyGroups "()()".toList ∧
    Postfix.ofText "()()".toList ≠ .error .emptyExpression ∧
    Postfix.augmentedOfText "()()".toList ≠ .error .emptyExpression := by
  have hgroups : OnlyGroups "()()".toList := ⟨.group .nil (.group .nil .nil), by simp⟩
  exact ⟨hgroups, by decide, by decide⟩

end FormalLang
