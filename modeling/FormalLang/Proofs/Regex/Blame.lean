import FormalLang.Proofs.Regex.Augmentation
import FormalLang.Proofs.Regex.Operands
import FormalLang.Proofs.Regex.Partners

/-!
# What a rejected text is blamed for

Each pass of the front end reports the first thing from the left that is wrong for it.  `Blames`
says which error that is, by the characters of the text and their neighbours alone, and every text
that is rejected is blamed for it (`blames_of_error`).

* **The scan** stops at the leftmost character that is no token (`Token.scanFrom_cases`).
* **The parentheses** are those of `Postfix.lone_of_checkParens`.
* **The operators.**  Concatenations that are put in have no part in the check
  (`Postfix.checkOperators_joinFrom`), so an operator without operand is one by the characters next
  to it (`Postfix.checkOperators_cases`).
* **The reading of the listing** reports an operator of the listing, which the text contains or
  which was put in front of an operand (`Postfix.operator_of_mem_shunt`).  It fails on texts with an
  empty group only (`Postfix.empty_of_ofTokens`).
-/

namespace FormalLang

variable {cs front : List Char} {c : Char} {k : TokenKind} {e : RegexError} {i : Nat}

/-! ## 1. Blame -/

/-- Whether the character at a position is no token. -/
def ForeignAt (cs : List Char) (i : Nat) : Prop := ∃ c, cs[i]? = some c ∧ ∀ k, ¬ CharIs c k

/-- Whether an operand may end with a character. -/
def EndsOperand (c : Char) : Prop :=
  Text.isAlphanumeric c = true ∨ c = epsilonChar ∨ c = ')' ∨ c = '*'

/-- Whether an operand may begin with a character. -/
def StartsOperand (c : Char) : Prop :=
  Text.isAlphanumeric c = true ∨ c = epsilonChar ∨ c = '('

instance (c : Char) : Decidable (EndsOperand c) :=
  inferInstanceAs (Decidable (_ ∨ _ ∨ _ ∨ _))

instance (c : Char) : Decidable (StartsOperand c) :=
  inferInstanceAs (Decidable (_ ∨ _ ∨ _))

/-- **Whether an operator without its operands is at a position**: no operand ends right before it,
or it is a `|` and no operand begins right behind it. -/
def IncompleteAt (cs : List Char) (i : Nat) : Prop :=
  (cs[i]? = some '|' ∨ cs[i]? = some '*') ∧ (¬ ∃ c ∈ (cs.take i).getLast?, EndsOperand c) ∨
    cs[i]? = some '|' ∧ ¬ ∃ c ∈ cs[i + 1]?, StartsOperand c

/-- **What a text is blamed for.**  Each rule presupposes that those before it do not apply. -/
inductive Blames (cs : List Char) : RegexError → Prop where
  /-- The leftmost character that is no token is the end marker. -/
  | reserved {p : Nat} (h : IsLeast {i | ForeignAt cs i} p) (hp : cs[p]? = some endMarkerChar) :
      Blames cs (.reservedSymbol endMarkerChar p)
  /-- The leftmost character that is no token is another one. -/
  | invalid {c : Char} {p : Nat} (h : IsLeast {i | ForeignAt cs i} p) (hp : cs[p]? = some c)
      (hc : c ≠ endMarkerChar) : Blames cs (.invalidSymbol c p)
  /-- The leftmost `)` without partner. -/
  | closing {p : Nat} (htokens : ∀ i, ¬ ForeignAt cs i) (h : IsLeast {q | LoneAt ')' cs q} p) :
      Blames cs (.unbalancedParen p)
  /-- The rightmost `(` without partner. -/
  | opening {p : Nat} (htokens : ∀ i, ¬ ForeignAt cs i) (hclosing : ∀ i, ¬ LoneAt ')' cs i)
      (h : IsGreatest {q | LoneAt '(' cs q} p) : Blames cs (.unbalancedParen p)
  /-- The leftmost operator without its operands. -/
  | incomplete {op : Char} {p : Nat} (htokens : ∀ i, ¬ ForeignAt cs i)
      (hparens : ∀ i c, c = '(' ∨ c = ')' → ¬ LoneAt c cs i)
      (h : IsLeast {i | IncompleteAt cs i} p) (hp : cs[p]? = some op) :
      Blames cs (.missingOperand op p)
  /-- An operator of a text with an empty group. -/
  | written {op : Char} {p : Nat} (htokens : ∀ i, ¬ ForeignAt cs i)
      (hparens : ∀ i c, c = '(' ∨ c = ')' → ¬ LoneAt c cs i)
      (hcomplete : ∀ i, ¬ IncompleteAt cs i) (hempty : ['(', ')'] <:+: cs)
      (hop : op = '|' ∨ op = '*') (hp : cs[p]? = some op) : Blames cs (.missingOperand op p)
  /-- A concatenation in a text with an empty group, which is put in where an operand begins. -/
  | joined {c : Char} {p : Nat} (htokens : ∀ i, ¬ ForeignAt cs i)
      (hparens : ∀ i c, c = '(' ∨ c = ')' → ¬ LoneAt c cs i)
      (hcomplete : ∀ i, ¬ IncompleteAt cs i) (hempty : ['(', ')'] <:+: cs)
      (hc : StartsOperand c) (hp : cs[p]? = some c) :
      Blames cs (.missingOperand Operator.concat.toChar p)

/-- **The blame is put on a character.** -/
theorem Blames.exists_position (h : Blames cs e) :
    ∃ p c, e.position? = some p ∧ cs[p]? = some c := by
  cases h with
  | reserved h hp => exact ⟨_, _, rfl, hp⟩
  | invalid h hp hc => exact ⟨_, _, rfl, hp⟩
  | closing _ h => exact ⟨_, _, rfl, h.1.1⟩
  | opening _ _ h => exact ⟨_, _, rfl, h.1.1⟩
  | incomplete _ _ h hp => exact ⟨_, _, rfl, hp⟩
  | written _ _ _ _ _ hp => exact ⟨_, _, rfl, hp⟩
  | joined _ _ _ _ _ hp => exact ⟨_, _, rfl, hp⟩

/-! ## 2. Characters -/

theorem CharIs.endsOperand_iff (h : CharIs c k) : k.endsOperand = true ↔ EndsOperand c := by
  cases h with
  | openParen => decide
  | closeParen => exact iff_of_true rfl (.inr (.inr (.inl rfl)))
  | union => decide
  | star => exact iff_of_true rfl (.inr (.inr (.inr rfl)))
  | epsilon => exact iff_of_true rfl (.inr (.inl rfl))
  | char halphanumeric _ => exact iff_of_true rfl (.inl halphanumeric)

theorem CharIs.startsOperand_iff (h : CharIs c k) : k.startsOperand = true ↔ StartsOperand c := by
  cases h with
  | openParen => exact iff_of_true rfl (.inr (.inr rfl))
  | closeParen => decide
  | union => decide
  | star => decide
  | epsilon => exact iff_of_true rfl (.inr (.inl rfl))
  | char halphanumeric _ => exact iff_of_true rfl (.inl halphanumeric)

theorem CharIs.eq_toChar {op : Operator} (h : CharIs c (.operator op)) : c = op.toChar := by
  cases h with
  | union => rfl
  | star => rfl

theorem CharIs.bar_or_star {op : Operator} (h : CharIs c (.operator op)) : c = '|' ∨ c = '*' := by
  cases h with
  | union => exact .inl rfl
  | star => exact .inr rfl

/-! ## 3. From the left -/

/-- What is at a number and at no smaller one is there first. -/
theorem isLeast_of_forall_lt {P : Nat → Prop} {n : Nat} (hbefore : ∀ i < n, ¬ P i) (h : P n) :
    IsLeast {i | P i} n :=
  ⟨h, fun i hi => Nat.le_of_not_lt fun hlt => hbefore i hlt hi⟩

/-- What is not before a number and not at it is not before the next one. -/
theorem forall_lt_length_append {P : Nat → Prop} (hfront : ∀ i < front.length, ¬ P i)
    (h : ¬ P front.length) (c : Char) : ∀ i < (front ++ [c]).length, ¬ P i := by
  rw [List.length_append]
  exact Nat.forall_lt_succ_right.mpr ⟨hfront, h⟩

theorem ForeignAt.lt (h : ForeignAt cs i) : i < cs.length := by
  obtain ⟨c, hc, -⟩ := h
  exact (List.getElem?_eq_some_iff.mp hc).1

theorem IncompleteAt.lt (h : IncompleteAt cs i) : i < cs.length := by
  rcases h with ⟨hop | hop, -⟩ | ⟨hop, -⟩
  · exact (List.getElem?_eq_some_iff.mp hop).1
  · exact (List.getElem?_eq_some_iff.mp hop).1
  · exact (List.getElem?_eq_some_iff.mp hop).1

theorem foreignAt_append_iff : ForeignAt (front ++ c :: cs) front.length ↔ ∀ k, ¬ CharIs c k := by
  simp [ForeignAt]

/-- The error of a character that is no token. -/
theorem Token.ofChar_eq_error (h : ∀ k, ¬ CharIs c k) (position : Nat) : ofChar c position =
    .error (if c = endMarkerChar then .reservedSymbol c position
      else .invalidSymbol c position) := by
  cases hread : ofChar c position with
  | ok token => exact absurd (kind_of_ofChar hread) (h _)
  | error e =>
    simp only [ofChar] at hread
    split_ifs at hread ⊢ <;> simp_all

/-- **The scan stops at the leftmost character that is no token**, if there is none in front. -/
theorem Token.scanFrom_cases : ∀ {cs front : List Char},
    (∀ i < front.length, ¬ ForeignAt (front ++ cs) i) →
      (∃ tokens, scanFrom front.length cs = .ok tokens ∧ ∀ i, ¬ ForeignAt (front ++ cs) i) ∨
      ∃ c p, scanFrom front.length cs = .error (if c = endMarkerChar then .reservedSymbol c p
          else .invalidSymbol c p) ∧
        (front ++ cs)[p]? = some c ∧ IsLeast {i | ForeignAt (front ++ cs) i} p
  | [], front, hfront => by
    rw [List.append_nil] at hfront ⊢
    exact .inl ⟨[], rfl, fun i hi => hfront i hi.lt hi⟩
  | c :: cs, front, hfront => by
    by_cases hforeign : ForeignAt (front ++ c :: cs) front.length
    · refine .inr ⟨c, front.length, ?_, by simp, isLeast_of_forall_lt hfront hforeign⟩
      rw [scanFrom, ofChar_eq_error (foreignAt_append_iff.mp hforeign)]
    · obtain ⟨k, hk⟩ := not_forall_not.mp (mt foreignAt_append_iff.mpr hforeign)
      have hnext := forall_lt_length_append hfront hforeign c
      have hlength : (front ++ [c]).length = front.length + 1 := List.length_append
      rw [List.append_cons front c cs] at hnext ⊢
      rw [scanFrom, ofChar_of_charIs hk]
      rcases scanFrom_cases hnext with ⟨tokens, hok, hnone⟩ | ⟨d, p, herror, hp, hleast⟩
      · rw [hlength] at hok
        exact .inl ⟨_, by rw [hok], hnone⟩
      · rw [hlength] at herror
        exact .inr ⟨d, p, by rw [herror], hp, hleast⟩

theorem Token.foreign_of_scan (cs : List Char) :
    (∃ tokens, scan cs = .ok tokens ∧ ∀ i, ¬ ForeignAt cs i) ∨
      ∃ c p, scan cs = .error (if c = endMarkerChar then .reservedSymbol c p
          else .invalidSymbol c p) ∧ cs[p]? = some c ∧ IsLeast {i | ForeignAt cs i} p := by
  have hnone : ∀ i < ([] : List Char).length, ¬ ForeignAt ([] ++ cs) i :=
    fun i hi => absurd hi (Nat.not_lt_zero i)
  exact scanFrom_cases hnone

/-! ## 4. The operators -/

namespace Postfix

theorem exists_operator_of_isComplete {a b : Bool} (h : isComplete a b k = false) :
    ∃ op, k = .operator op := by
  cases k with
  | operator op => exact ⟨op, rfl⟩
  | leaf s => contradiction
  | openParen => contradiction
  | closeParen => contradiction

theorem checkOperators_cons_of_incomplete {op : Operator} {rest : List Token} {a : Bool}
    (h : isComplete a (rest.head?.any fun next => next.kind.startsOperand) (.operator op) = false)
    (position : Nat) : checkOperators a (⟨.operator op, position⟩ :: rest) =
      .error (.missingOperand op.toChar position) := by
  rw [checkOperators]
  exact if_neg (Bool.not_eq_true _ ▸ h)

/-- Behind a bar nothing is put in, and no other token looks at what is behind it. -/
theorem isComplete_joinFrom (k : TokenKind) (rest : List Token) (a : Bool) :
    isComplete a ((joinFrom k.endsOperand rest).head?.any fun next => next.kind.startsOperand) k =
      isComplete a (rest.head?.any fun next => next.kind.startsOperand) k := by
  rcases k with _ | _ | _ | _ | _ | _
  · rfl
  · rfl
  · rfl
  · rfl
  · rfl
  · cases rest with
    | nil => rfl
    | cons next rest => rfl

/-- **Concatenations that are put in have no part in the check.** -/
theorem checkOperators_joinFrom : ∀ {tokens : List Token} {joined a : Bool},
    checkOperators a (joinFrom joined tokens) = checkOperators a tokens
  | [], _, _ => rfl
  | ⟨k, position⟩ :: rest, joined, a => by
    have hrest : ∀ a, checkOperators a (joinFrom k.endsOperand rest) = checkOperators a rest :=
      fun _ => checkOperators_joinFrom
    have htoken : checkOperators a (⟨k, position⟩ :: joinFrom k.endsOperand rest) =
        checkOperators a (⟨k, position⟩ :: rest) := by
      have hnext := isComplete_joinFrom k rest a
      cases hcomplete : isComplete a (rest.head?.any fun next => next.kind.startsOperand) k with
      | true =>
        rw [hcomplete] at hnext
        rw [checkOperators_cons hnext, checkOperators_cons hcomplete]
        exact hrest _
      | false =>
        rw [hcomplete] at hnext
        obtain ⟨op, rfl⟩ := exists_operator_of_isComplete hcomplete
        rw [checkOperators_cons_of_incomplete hnext, checkOperators_cons_of_incomplete hcomplete]
    rw [joinFrom]
    split
    · rw [checkOperators_cons rfl]
      rename_i hjoined
      have hstarts : k.startsOperand = true := (Bool.and_eq_true_iff.mp hjoined).2
      have hcomplete := isComplete_of_startsOperand hstarts
      rw [checkOperators_cons (hcomplete _ _), checkOperators_cons (hcomplete _ _)]
      exact hrest _
    · exact htoken

theorem isComplete_eq_false_iff {a b : Bool} (hk : CharIs c k) : isComplete a b k = false ↔
    (c = '|' ∨ c = '*') ∧ a = false ∨ c = '|' ∧ b = false := by
  cases hk with
  | openParen => simp [isComplete]
  | closeParen => simp [isComplete]
  | union => simp [isComplete, Bool.and_eq_false_iff, -Bool.and_eq_false_imp]
  | star => simp [isComplete]
  | epsilon => simp [isComplete, epsilonChar]
  | char halphanumeric _ =>
    have hbar : c ≠ '|' := Text.ne_of_isAlphanumeric halphanumeric (by decide)
    have hstar : c ≠ '*' := Text.ne_of_isAlphanumeric halphanumeric (by decide)
    simp [isComplete, hbar, hstar]

theorem head?_startsOperand_iff {cs : List Char} {position : Nat} {tokens : List Token}
    (hscan : Token.scanFrom position cs = .ok tokens) :
    (tokens.head?.any fun next => next.kind.startsOperand) = true ↔
      ∃ c ∈ cs.head?, StartsOperand c := by
  rcases cs with _ | ⟨c, cs⟩
  · obtain rfl := Except.ok.inj hscan
    simp
  · obtain ⟨k, rest, rfl, hk, -⟩ := Token.scanFrom_cons hscan
    simp [hk.startsOperand_iff]

/-- **A token misses an operand exactly if its character does.** -/
theorem incompleteAt_append_iff {tokens : List Token} {a : Bool} (hk : CharIs c k)
    (ha : a = true ↔ ∃ d ∈ front.getLast?, EndsOperand d) {position : Nat}
    (hscan : Token.scanFrom position cs = .ok tokens) :
    IncompleteAt (front ++ c :: cs) front.length ↔
      isComplete a (tokens.head?.any fun next => next.kind.startsOperand) k = false := by
  have hbefore : a = false ↔ ¬ ∃ d ∈ front.getLast?, EndsOperand d := by
    rw [← ha, Bool.not_eq_true]
  have hbehind : (tokens.head?.any fun next => next.kind.startsOperand) = false ↔
      ¬ ∃ d ∈ cs.head?, StartsOperand d := by
    rw [← head?_startsOperand_iff hscan, Bool.not_eq_true]
  have hhere : (front ++ c :: cs)[front.length]? = some c := by simp
  have hnext : (front ++ c :: cs)[front.length + 1]? = cs.head? := by
    rw [List.append_cons, List.getElem?_append_right (by simp), List.head?_eq_getElem?]
    simp
  rw [isComplete_eq_false_iff hk, hbefore, hbehind, IncompleteAt, hhere, hnext, List.take_left,
    Option.some.injEq, Option.some.injEq]

/-- **The check of the operators stops at the leftmost one without its operands**, if there is none
in front. -/
theorem checkOperators_cases : ∀ {cs front : List Char} {tokens : List Token} {a : Bool},
    Token.scanFrom front.length cs = .ok tokens →
      (a = true ↔ ∃ c ∈ front.getLast?, EndsOperand c) →
      (∀ i < front.length, ¬ IncompleteAt (front ++ cs) i) →
      (checkOperators a tokens = .ok () ∧ ∀ i, ¬ IncompleteAt (front ++ cs) i) ∨
      ∃ c p, checkOperators a tokens = .error (.missingOperand c p) ∧
        (front ++ cs)[p]? = some c ∧ IsLeast {i | IncompleteAt (front ++ cs) i} p
  | [], front, tokens, a, hscan, _, hfront => by
    obtain rfl := Except.ok.inj hscan
    rw [List.append_nil] at hfront ⊢
    exact .inl ⟨rfl, fun i hi => hfront i hi.lt hi⟩
  | c :: cs, front, tokens, a, hscan, ha, hfront => by
    obtain ⟨k, rest, rfl, hk, hrest⟩ := Token.scanFrom_length_cons hscan
    have hiff := incompleteAt_append_iff hk ha hrest
    by_cases hincomplete : IncompleteAt (front ++ c :: cs) front.length
    · have hfalse := hiff.mp hincomplete
      obtain ⟨op, rfl⟩ := exists_operator_of_isComplete hfalse
      obtain rfl := hk.eq_toChar
      exact .inr ⟨_, _, checkOperators_cons_of_incomplete hfalse _, by simp,
        isLeast_of_forall_lt hfront hincomplete⟩
    · have hnext := forall_lt_length_append hfront hincomplete c
      have hends : k.endsOperand = true ↔ ∃ d ∈ (front ++ [c]).getLast?, EndsOperand d := by
        rw [List.getLast?_concat]
        simp [hk.endsOperand_iff]
      rw [List.append_cons front c cs] at hnext ⊢
      rw [checkOperators_cons (Bool.not_eq_false _ ▸ mt hiff.mpr hincomplete)]
      exact checkOperators_cases hrest hends hnext

/-- **The check reports the leftmost operator without its operands.**  Without report there is
none. -/
theorem incomplete_of_checkOperators {tokens : List Token} (hscan : Token.scan cs = .ok tokens) :
    (checkOperators false (insertConcat tokens) = .ok () ∧ ∀ i, ¬ IncompleteAt cs i) ∨
      ∃ c p, checkOperators false (insertConcat tokens) = .error (.missingOperand c p) ∧
        cs[p]? = some c ∧ IsLeast {i | IncompleteAt cs i} p := by
  have hbeginning : false = true ↔ ∃ c ∈ ([] : List Char).getLast?, EndsOperand c := by simp
  have hnone : ∀ i < ([] : List Char).length, ¬ IncompleteAt ([] ++ cs) i :=
    fun i hi => absurd hi (Nat.not_lt_zero i)
  rw [insertConcat_eq_joinFrom, checkOperators_joinFrom]
  exact @checkOperators_cases cs [] tokens false hscan hbeginning hnone

/-! ## 5. The listing -/

variable {token : Token}

/-- The reading goes on behind an item, or the item is an operator that finds too few operands. -/
theorem evaluate_cons_cases (item : Item) (rest : List Item) : ∀ stack : List Regex,
    (∃ next, evaluate stack (item :: rest) = evaluate next rest) ∨
      ∃ op, item.entry = .operator op ∧
        evaluate stack (item :: rest) = .error (.missingOperand op.toChar item.position) := by
  rcases item with ⟨_ | _ | _ | _, position⟩
  · exact fun _ => .inl ⟨_, rfl⟩
  · rintro (_ | ⟨e, below⟩)
    · exact .inr ⟨_, rfl, rfl⟩
    · exact .inl ⟨_, rfl⟩
  · rintro (_ | ⟨r, _ | ⟨l, below⟩⟩)
    · exact .inr ⟨_, rfl, rfl⟩
    · exact .inr ⟨_, rfl, rfl⟩
    · exact .inl ⟨_, rfl⟩
  · rintro (_ | ⟨r, _ | ⟨l, below⟩⟩)
    · exact .inr ⟨_, rfl, rfl⟩
    · exact .inr ⟨_, rfl, rfl⟩
    · exact .inl ⟨_, rfl⟩

/-- **A reading fails at an operator of the listing.** -/
theorem exists_operator_of_evaluate : ∀ {items : List Item} {stack : List Regex},
    evaluate stack items = .error e → ∃ item ∈ items, ∃ op,
      item.entry = .operator op ∧ e = .missingOperand op.toChar item.position
  | [], _, h => by contradiction
  | item :: rest, stack, h => by
    rcases evaluate_cons_cases item rest stack with ⟨next, hnext⟩ | ⟨op, hop, herror⟩
    · rw [hnext] at h
      obtain ⟨found, hfound, hblamed⟩ := exists_operator_of_evaluate h
      exact ⟨found, List.mem_cons_of_mem _ hfound, hblamed⟩
    · rw [herror] at h
      exact ⟨item, List.mem_cons_self, op, hop, (Except.error.inj h).symm⟩

theorem closeTokens_sublist : ∀ held : List Token,
    ((closeTokens held).1 ++ (closeTokens held).2).Sublist held
  | [] => .slnil
  | top :: rest => by
    rw [closeTokens]
    split
    · exact List.sublist_cons_self _ _
    · exact (closeTokens_sublist rest).cons_cons top

theorem releaseTokens_sublist (op : Operator) : ∀ held : List Token,
    ((releaseTokens op held).1 ++ (releaseTokens op held).2).Sublist held
  | [] => .slnil
  | top :: rest => by
    rw [releaseTokens]
    split
    · split
      · exact (releaseTokens_sublist op rest).cons_cons top
      · exact List.Sublist.refl _
    · exact List.Sublist.refl _

/-- A token goes out or onto the stack, and releases what was there. -/
theorem exists_shuntTokens_cons (token : Token) (held rest : List Token) : ∃ out next,
    shuntTokens held (token :: rest) = out ++ shuntTokens next rest ∧
      out ++ next ⊆ token :: held := by
  rcases token with ⟨_ | _ | _ | op, position⟩
  · exact ⟨[_], held, rfl, List.Subset.refl _⟩
  · exact ⟨[], _, rfl, List.Subset.refl _⟩
  · exact ⟨_, _, rfl, List.subset_cons_of_subset _ (closeTokens_sublist held).subset⟩
  · refine ⟨_, _, rfl, ?_⟩
    have hreleased := List.cons_subset_cons ⟨.operator op, position⟩
      (releaseTokens_sublist op held).subset
    exact List.Subset.trans List.perm_middle.subset hreleased

/-- **What is put out was waiting or came in.** -/
theorem mem_shuntTokens : ∀ {tokens held : List Token}, token ∈ shuntTokens held tokens →
    token ∈ held ∨ token ∈ tokens
  | [], _, h => .inl h
  | first :: rest, held, h => by
    obtain ⟨out, next, hstep, hsubset⟩ := exists_shuntTokens_cons first held rest
    have hmoved : token ∈ out ++ next → token ∈ held ∨ token ∈ first :: rest := by
      intro hmem
      rcases List.mem_cons.mp (hsubset hmem) with rfl | hheld
      · exact .inr List.mem_cons_self
      · exact .inl hheld
    rw [hstep] at h
    rcases List.mem_append.mp h with hout | hlater
    · exact hmoved (List.mem_append_left _ hout)
    · rcases mem_shuntTokens hlater with hnext | hrest
      · exact hmoved (List.mem_append_right _ hnext)
      · exact .inr (List.mem_cons_of_mem _ hrest)

/-- A token was there, or it is a concatenation in front of one where an operand begins. -/
theorem mem_joinFrom : ∀ {tokens : List Token} {joined : Bool}, token ∈ joinFrom joined tokens →
    token ∈ tokens ∨
      ∃ next ∈ tokens, next.kind.startsOperand = true ∧ token = ⟨.operator .concat, next.position⟩
  | [], _, h => .inl h
  | first :: rest, joined, h => by
    have hlater : token ∈ first :: joinFrom first.kind.endsOperand rest → token ∈ first :: rest ∨
        ∃ next ∈ first :: rest, next.kind.startsOperand = true ∧
          token = ⟨.operator .concat, next.position⟩ := by
      intro hmem
      rcases List.mem_cons.mp hmem with rfl | hmem
      · exact .inl List.mem_cons_self
      · rcases mem_joinFrom hmem with hrest | ⟨next, hnext, hstarts, htoken⟩
        · exact .inl (List.mem_cons_of_mem _ hrest)
        · exact .inr ⟨next, List.mem_cons_of_mem _ hnext, hstarts, htoken⟩
    rw [joinFrom] at h
    split at h
    · rename_i hjoined
      rcases List.mem_cons.mp h with rfl | h
      · exact .inr ⟨first, List.mem_cons_self, (Bool.and_eq_true_iff.mp hjoined).2, rfl⟩
      · exact hlater h
    · exact hlater h

end Postfix

/-- A token is the character at its position. -/
theorem Token.charIs_of_scanFrom : ∀ {cs front : List Char} {tokens : List Token} {token : Token},
    scanFrom front.length cs = .ok tokens → token ∈ tokens →
      ∃ c, (front ++ cs)[token.position]? = some c ∧ CharIs c token.kind
  | [], _, _, _, hscan, h => by
    obtain rfl := Except.ok.inj hscan
    contradiction
  | c :: cs, front, tokens, token, hscan, h => by
    obtain ⟨k, rest, rfl, hk, hrest⟩ := scanFrom_length_cons hscan
    rcases List.mem_cons.mp h with rfl | h
    · exact ⟨c, by simp, hk⟩
    · rw [List.append_cons]
      exact charIs_of_scanFrom hrest h

/-- **An outline is that of an expression unless there is an empty group.** -/
theorem Outlined.exists_empty {phrase : Phrase} {ks : List TokenKind} {l : List Entry} {n : Nat}
    (h : Outlined phrase ks l n) : 0 < n → [.openParen, .closeParen] <:+: ks := by
  induction h with
  | leaf s => nofun
  | empty => exact fun _ => List.infix_refl _
  | @group ks _ _ _ ih => exact fun hn => (ih hn).trans ⟨[.openParen], [.closeParen], rfl⟩
  | ofAtom _ ih => exact ih
  | star _ ih => exact fun hn => (ih hn).trans (List.prefix_append _ _).isInfix
  | ofFactor _ ih => exact ih
  | concat _ _ ihl ihr =>
    intro hn
    rcases Nat.add_pos_iff_pos_or_pos.mp hn with hn | hn
    · exact (ihl hn).trans (List.prefix_append _ _).isInfix
    · exact (ihr hn).trans (List.suffix_append _ _).isInfix
  | ofTerm _ ih => exact ih
  | @union ks _ _ _ _ _ _ _ ihl ihr =>
    intro hn
    rcases Nat.add_pos_iff_pos_or_pos.mp hn with hn | hn
    · exact (ihl hn).trans (List.prefix_append _ _).isInfix
    · exact (ihr hn).trans ((List.suffix_cons _ _).trans (List.suffix_append ks _)).isInfix

/-- Where a text has an empty group by its tokens, it has one by its characters. -/
theorem infix_of_charIs {ks : List TokenKind} (h : List.Forall₂ CharIs cs ks)
    (hempty : [.openParen, .closeParen] <:+: ks) : ['(', ')'] <:+: cs := by
  obtain ⟨before, behind, rfl⟩ := hempty
  rw [List.append_assoc] at h
  have hgroup := List.forall₂_drop_append cs before _ h
  obtain ⟨c, rest, hc, hrest, hcs⟩ := List.forall₂_cons_right_iff.mp hgroup
  obtain ⟨d, rest, hd, -, rfl⟩ := List.forall₂_cons_right_iff.mp hrest
  cases hc
  cases hd
  have hwhole := List.take_append_drop before.length cs
  rw [hcs] at hwhole
  exact ⟨_, rest, (List.append_assoc _ _ _).trans hwhole⟩

/-! ## 6. The front end -/

namespace Postfix

variable {tokens : List Token}

/-- **The reading of the listing fails on texts with empty groups only.** -/
theorem empty_of_ofTokens (hscan : Token.scan cs = .ok tokens) (h : ofTokens tokens = .error e)
    (hne : tokens ≠ []) (hparens : checkParens [] tokens = .ok ())
    (hoperators : checkOperators false (insertConcat tokens) = .ok ()) : ['(', ')'] <:+: cs := by
  have hkinds := Token.kinds_of_scanFrom hscan
  have hconcat := concat_not_mem_of_charIs hkinds
  rcases outlined_of_checks hconcat hparens hoperators with rfl | ⟨l, n, houtlined⟩
  · contradiction
  · rcases Nat.eq_zero_or_pos n with hn | hn
    · obtain ⟨expression, hwritten, -⟩ := houtlined.written hn
      obtain ⟨p, hp⟩ := exists_ofTokens_of_written hconcat hwritten
      rw [hp] at h
      contradiction
    · exact infix_of_charIs hkinds (houtlined.exists_empty hn)

/-- **An operator of the listing** is in the text, or it is a concatenation and an operand begins
there. -/
theorem operator_of_mem_shunt (hscan : Token.scan cs = .ok tokens)
    (hparens : checkParens [] tokens = .ok ()) {item : Item} {op : Operator}
    (hitem : item ∈ shunt [] (insertConcat tokens)) (hop : item.entry = .operator op) :
    ((op.toChar = '|' ∨ op.toChar = '*') ∧ cs[item.position]? = some op.toChar) ∨
      op = .concat ∧ ∃ c, StartsOperand c ∧ cs[item.position]? = some c := by
  rw [insertConcat_eq_joinFrom] at hitem
  have hexplicit : checkParens [] (joinFrom false tokens) = .ok () := by
    rw [checkParens_joinFrom]
    exact hparens
  have hmem : item.token ∈ (shunt [] (joinFrom false tokens)).map Item.token :=
    List.mem_map_of_mem hitem
  rw [← shuntTokens_eq .nil hexplicit] at hmem
  rcases mem_shuntTokens hmem with hnothing | hmem
  · contradiction
  · rcases mem_joinFrom hmem with hmem | ⟨next, hnext, hstarts, htoken⟩
    · obtain ⟨c, hc, hkind⟩ := @Token.charIs_of_scanFrom cs [] _ _ hscan hmem
      rw [Item.token, hop] at hkind
      obtain rfl := hkind.eq_toChar
      exact .inl ⟨hkind.bar_or_star, hc⟩
    · obtain ⟨c, hc, hkind⟩ := @Token.charIs_of_scanFrom cs [] _ _ hscan hnext
      obtain ⟨hconcat, hposition⟩ := Token.mk.inj htoken
      rw [hop] at hconcat
      rw [hposition]
      exact .inr ⟨TokenKind.operator.inj hconcat, c, hkind.startsOperand_iff.mp hstarts, hc⟩

/-- **What a sequence of tokens is rejected for**, if all characters of the text are tokens. -/
theorem blames_of_ofTokens (hscan : Token.scan cs = .ok tokens)
    (htokens : ∀ i, ¬ ForeignAt cs i) (h : ofTokens tokens = .error e)
    (hne : e ≠ .emptyExpression) : Blames cs e := by
  have hrejected := h
  rw [ofTokens] at h
  rcases lone_of_checkParens hscan with
    ⟨hok, hparens⟩ | ⟨q, herror, hleast⟩ | ⟨q, herror, hclosing, hgreatest⟩
  · rw [hok] at h
    dsimp only at h
    rcases incomplete_of_checkOperators hscan with
      ⟨hoperators, hcomplete⟩ | ⟨c, p, herror, hp, hleast⟩
    · rw [hoperators] at h
      dsimp only at h
      split at h
      · rename_i hread
        obtain rfl := Except.error.inj h
        obtain ⟨item, hitem, op, hop, rfl⟩ := exists_operator_of_evaluate hread
        have hsome : tokens ≠ [] := by
          rintro rfl
          cases hread
        have hempty := empty_of_ofTokens hscan hrejected hsome hok hoperators
        rcases operator_of_mem_shunt hscan hok hitem hop with ⟨hchar, hp⟩ | ⟨rfl, c, hc, hp⟩
        · exact .written htokens hparens hcomplete hempty hchar hp
        · exact .joined htokens hparens hcomplete hempty hc hp
      · exact absurd (Except.error.inj h).symm hne
      · cases h
    · rw [herror] at h
      obtain rfl := Except.error.inj h
      exact .incomplete htokens hparens hleast hp
  · rw [herror] at h
    obtain rfl := Except.error.inj h
    exact .closing htokens hleast
  · rw [herror] at h
    obtain rfl := Except.error.inj h
    exact .opening htokens hclosing hgreatest

theorem blames_of_ofText (h : ofText cs = .error e) (hne : e ≠ .emptyExpression) :
    Blames cs e := by
  rw [ofText] at h
  rcases Token.foreign_of_scan cs with ⟨tokens, hscan, htokens⟩ | ⟨c, p, hscan, hp, hleast⟩
  · rw [hscan] at h
    exact blames_of_ofTokens hscan htokens h hne
  · rw [hscan] at h
    obtain rfl := Except.error.inj h
    split
    · rename_i hc
      rw [hc] at hp ⊢
      exact .reserved hleast hp
    · rename_i hc
      exact .invalid hleast hp hc

end Postfix

/-- **What either construction rejects is blamed for it.** -/
theorem blames_of_error (h : thompson cs = .error e ∨ syntaxTree cs = .error e)
    (hne : e ≠ .emptyExpression) : Blames cs e := by
  refine Postfix.blames_of_ofText ?_ hne
  rcases h with h | h
  · rw [thompson_eq, map_eq_error_iff] at h
    exact h
  · rw [syntaxTree_eq, Postfix.augmentedOfText_eq, map_eq_error_iff, map_eq_error_iff] at h
    exact h

end FormalLang
