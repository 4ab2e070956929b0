import FormalLang.Proofs.Regex.Written
import FormalLang.Regex.Postfix

/-!
# Shunting lists what is written

The shunting-yard pass turns the tokens of a phrase into the listing of its expression
(`shunts_of_outlined`), and reading the listing gives the expression back (`evaluate_listing`).

**Empty groups.**  The checks of the front end let `()` through, so what is shunted need not be
written for an expression.  `Outlined` is the grammar of the texts with empty groups: it keeps the
listing, in which an empty group leaves no trace, and counts the groups.  Each one is an operand too
few, which the reading of the listing notices (`Outlined.count`).

**The invariant.**  While a phrase is shunted, some of its operators are still waiting.  They bind
at least as tightly as the phrase does, and what waits below binds less tightly, so that the next
operator releases the former and leaves the latter alone (`shunts_of_outlined`).
-/

namespace FormalLang

/-! ## 1. Texts with empty groups -/

/-- **Whether tokens outline a listing**, with a number of empty groups. -/
inductive Outlined : Phrase → List TokenKind → List Entry → Nat → Prop where
  | leaf (s : Leaf) : Outlined .atom [.leaf s] [.leaf s] 0
  | empty : Outlined .atom [.openParen, .closeParen] [] 1
  | group {ks : List TokenKind} {l : List Entry} {n : Nat} (h : Outlined .expression ks l n) :
      Outlined .atom (.openParen :: (ks ++ [.closeParen])) l n
  | ofAtom {ks : List TokenKind} {l : List Entry} {n : Nat} (h : Outlined .atom ks l n) :
      Outlined .factor ks l n
  | star {ks : List TokenKind} {l : List Entry} {n : Nat} (h : Outlined .factor ks l n) :
      Outlined .factor (ks ++ [.operator .star]) (l ++ [.operator .star]) n
  | ofFactor {ks : List TokenKind} {l : List Entry} {n : Nat} (h : Outlined .factor ks l n) :
      Outlined .term ks l n
  | concat {ks ks' : List TokenKind} {l l' : List Entry} {n n' : Nat} (hl : Outlined .term ks l n)
      (hr : Outlined .factor ks' l' n') :
      Outlined .term (ks ++ ks') (l ++ l' ++ [.operator .concat]) (n + n')
  | ofTerm {ks : List TokenKind} {l : List Entry} {n : Nat} (h : Outlined .term ks l n) :
      Outlined .expression ks l n
  | union {ks ks' : List TokenKind} {l l' : List Entry} {n n' : Nat}
      (hl : Outlined .expression ks l n) (hr : Outlined .term ks' l' n') :
      Outlined .expression (ks ++ .operator .union :: ks') (l ++ l' ++ [.operator .union]) (n + n')

variable {p : Phrase} {ks : List TokenKind} {l : List Entry} {n : Nat}

theorem Written.outlined {e : Regex} (h : Written p ks e) : Outlined p ks e.listing 0 := by
  induction h with
  | leaf s => exact .leaf s
  | group _ ih => exact .group ih
  | ofAtom _ ih => exact .ofAtom ih
  | star _ ih => exact .star ih
  | ofFactor _ ih => exact .ofFactor ih
  | concat _ _ ihl ihr => exact .concat ihl ihr
  | ofTerm _ ih => exact .ofTerm ih
  | union _ _ ihl ihr => exact .union ihl ihr

/-- Without empty groups the listing is that of an expression. -/
theorem Outlined.written (h : Outlined p ks l n) :
    n = 0 → ∃ e, Written p ks e ∧ e.listing = l := by
  induction h with
  | leaf s => exact fun _ => ⟨.leaf s, .leaf s, rfl⟩
  | empty => nofun
  | group _ ih =>
    intro hn
    obtain ⟨e, he, hlisting⟩ := ih hn
    exact ⟨e, .group he, hlisting⟩
  | ofAtom _ ih =>
    intro hn
    obtain ⟨e, he, hlisting⟩ := ih hn
    exact ⟨e, .ofAtom he, hlisting⟩
  | star _ ih =>
    intro hn
    obtain ⟨e, he, rfl⟩ := ih hn
    exact ⟨.star e, .star he, rfl⟩
  | ofFactor _ ih =>
    intro hn
    obtain ⟨e, he, hlisting⟩ := ih hn
    exact ⟨e, .ofFactor he, hlisting⟩
  | concat _ _ ihl ihr =>
    intro hn
    obtain ⟨e, he, rfl⟩ := ihl (by omega)
    obtain ⟨e', he', rfl⟩ := ihr (by omega)
    exact ⟨.concat e e', .concat he he', rfl⟩
  | ofTerm _ ih =>
    intro hn
    obtain ⟨e, he, hlisting⟩ := ih hn
    exact ⟨e, .ofTerm he, hlisting⟩
  | union _ _ ihl ihr =>
    intro hn
    obtain ⟨e, he, rfl⟩ := ihl (by omega)
    obtain ⟨e', he', rfl⟩ := ihr (by omega)
    exact ⟨.union e e', .union he he', rfl⟩

/-- A phrase begins with a token that an operand can begin with. -/
theorem Outlined.starts (h : Outlined p ks l n) :
    ∃ k rest, ks = k :: rest ∧ k.startsOperand = true := by
  induction h with
  | leaf s => exact ⟨_, _, rfl, rfl⟩
  | empty => exact ⟨_, _, rfl, rfl⟩
  | group _ _ => exact ⟨_, _, rfl, rfl⟩
  | ofAtom _ ih => exact ih
  | star _ ih =>
    obtain ⟨k, rest, rfl, hk⟩ := ih
    exact ⟨k, _, rfl, hk⟩
  | ofFactor _ ih => exact ih
  | concat _ _ ihl _ =>
    obtain ⟨k, rest, rfl, hk⟩ := ihl
    exact ⟨k, _, rfl, hk⟩
  | ofTerm _ ih => exact ih
  | union _ _ ihl _ =>
    obtain ⟨k, rest, rfl, hk⟩ := ihl
    exact ⟨k, _, rfl, hk⟩

/-- A phrase ends with a token that an operand can end with. -/
theorem Outlined.ends (h : Outlined p ks l n) :
    ∃ front k, ks = front ++ [k] ∧ k.endsOperand = true := by
  induction h with
  | leaf s => exact ⟨[], _, rfl, rfl⟩
  | empty => exact ⟨[.openParen], _, rfl, rfl⟩
  | @group ks _ _ _ _ => exact ⟨.openParen :: ks, _, rfl, rfl⟩
  | ofAtom _ ih => exact ih
  | star _ _ => exact ⟨_, _, rfl, rfl⟩
  | ofFactor _ ih => exact ih
  | @concat ks _ _ _ _ _ _ _ _ ihr =>
    obtain ⟨front, k, rfl, hk⟩ := ihr
    exact ⟨ks ++ front, k, (List.append_assoc _ _ _).symm, hk⟩
  | ofTerm _ ih => exact ih
  | @union ks _ _ _ _ _ _ _ _ ihr =>
    obtain ⟨front, k, rfl, hk⟩ := ihr
    exact ⟨ks ++ .operator .union :: front, k, by simp, hk⟩

/-! ## 2. Explicit concatenation -/

namespace Postfix

/-- `insertConcat`, for tokens behind others of which the last one may end an operand. -/
def joinFrom (afterOperand : Bool) : List Token → List Token
  | [] => []
  | token :: rest =>
    if afterOperand && token.kind.startsOperand then
      ⟨.operator .concat, token.position⟩ :: token :: joinFrom token.kind.endsOperand rest
    else token :: joinFrom token.kind.endsOperand rest

theorem joinFrom_false_cons (token : Token) (rest : List Token) :
    joinFrom false (token :: rest) = token :: joinFrom token.kind.endsOperand rest := rfl

theorem insertConcat_eq_joinFrom (tokens : List Token) :
    insertConcat tokens = joinFrom false tokens := by
  have hcons : ∀ (rest : List Token) (token : Token),
      insertConcat (token :: rest) = token :: joinFrom token.kind.endsOperand rest := by
    intro rest
    induction rest with
    | nil => exact fun _ => rfl
    | cons next rest ih =>
      intro token
      rw [insertConcat, joinFrom, ih]
      split
      · rfl
      · rfl
  cases tokens with
  | nil => rfl
  | cons token rest => rw [hcons, joinFrom_false_cons]

theorem joinFrom_cons {token : Token} (h : token.kind.startsOperand = false) (afterOperand : Bool)
    (rest : List Token) : joinFrom afterOperand (token :: rest) =
      token :: joinFrom token.kind.endsOperand rest := by
  rw [joinFrom, h, Bool.and_false, if_neg Bool.false_ne_true]

theorem eq_singleton_of_map_kind {tokens : List Token} {k : TokenKind}
    (h : tokens.map Token.kind = [k]) : ∃ position, tokens = [⟨k, position⟩] := by
  obtain ⟨⟨_, position⟩, rfl, rfl⟩ := List.map_eq_singleton_iff.mp h
  exact ⟨position, rfl⟩

theorem joinFrom_append {front : List Token} {last : Token} (hlast : last.kind.endsOperand = true)
    (back : List Token) : ∀ afterOperand, joinFrom afterOperand ((front ++ [last]) ++ back) =
      joinFrom afterOperand (front ++ [last]) ++ joinFrom true back := by
  induction front with
  | nil =>
    intro afterOperand
    simp only [List.nil_append, List.singleton_append, joinFrom, hlast]
    split
    · rfl
    · rfl
  | cons token front ih =>
    intro afterOperand
    simp only [List.cons_append, joinFrom]
    simp only [List.append_assoc] at ih ⊢
    rw [ih]
    split
    · rfl
    · rfl

/-- Behind an operand a phrase is joined by a concatenation. -/
theorem joinFrom_true {tokens : List Token} (h : Outlined p (tokens.map Token.kind) l n) :
    ∃ position, joinFrom true tokens =
      ⟨.operator .concat, position⟩ :: joinFrom false tokens := by
  obtain ⟨k, rest, hks, hk⟩ := h.starts
  obtain ⟨token, rest, rfl, rfl, rfl⟩ := List.map_eq_cons_iff.mp hks
  refine ⟨token.position, ?_⟩
  rw [joinFrom_false_cons, joinFrom, if_pos (by rw [hk]; rfl)]

theorem joinFrom_outlined_append {tokens : List Token}
    (h : Outlined p (tokens.map Token.kind) l n) (afterOperand : Bool) (back : List Token) :
    joinFrom afterOperand (tokens ++ back) =
      joinFrom afterOperand tokens ++ joinFrom true back := by
  obtain ⟨front, k, hks, hk⟩ := h.ends
  obtain ⟨front, last, rfl, rfl, hlast⟩ := List.map_eq_append_iff.mp hks
  obtain ⟨position, rfl⟩ := eq_singleton_of_map_kind hlast
  exact joinFrom_append hk back afterOperand

/-! ## 3. Shunting -/

/-- An operator that waits, with its position. -/
def waits (q : Operator × Nat) : Waiting := .operator q.1 q.2

/-- What becomes of an operator that is released. -/
def released (q : Operator × Nat) : Item := ⟨.operator q.1, q.2⟩

/-- Whether operators that bind at least so tightly leave a stack alone. -/
def Blocks (strength : Nat) : List Waiting → Prop
  | .operator op _ :: _ => op.precedence < strength
  | _ => True

theorem releaseTighter_waits {op : Operator} {stack : List Waiting}
    (hstack : Blocks op.precedence stack) : ∀ {pending : List (Operator × Nat)},
    (∀ q ∈ pending, op.precedence ≤ q.1.precedence) →
      releaseTighter op (pending.map waits ++ stack) = (pending.map released, stack)
  | [], _ => by
    rcases stack with _ | ⟨_ | ⟨top, position⟩, stack⟩
    · rfl
    · rfl
    · have hlt : ¬op.precedence ≤ top.precedence := Nat.not_le.mpr hstack
      simp only [List.map_nil, List.nil_append, releaseTighter, if_neg hlt]
  | q :: pending, h => by
    have hrest := releaseTighter_waits hstack
      fun q' hq' => h q' (List.mem_cons_of_mem _ hq')
    have hq : op.precedence ≤ q.1.precedence := h q List.mem_cons_self
    simp only [List.map_cons, List.cons_append, waits, releaseTighter, if_pos hq]
    rw [hrest]
    rfl

theorem closeGroup_waits {stack : List Waiting} : ∀ {pending : List (Operator × Nat)},
    closeGroup (pending.map waits ++ .group :: stack) = (pending.map released, stack)
  | [] => rfl
  | q :: pending => by
    have hrest := @closeGroup_waits stack pending
    simp only [List.map_cons, List.cons_append, waits, closeGroup]
    rw [hrest]
    rfl

theorem releaseAll_waits : ∀ {pending : List (Operator × Nat)},
    releaseAll (pending.map waits) = pending.map released
  | [] => rfl
  | q :: pending => by
    rw [List.map_cons, waits, releaseAll, releaseAll_waits]
    rfl

end Postfix

/-- How tightly an operator has to bind at least to be part of a phrase. -/
def Phrase.strength : Phrase → Nat
  | .expression => 1
  | .term => 2
  | .factor => 3
  | .atom => 4

theorem Postfix.Blocks.mono {m k : Nat} (h : m ≤ k) : ∀ {stack : List Waiting},
    Blocks m stack → Blocks k stack
  | [], _ => trivial
  | .group :: _, _ => trivial
  | .operator _ _ :: _, hm => Nat.lt_of_lt_of_le hm h

/-- How shunting some tokens goes, from stacks that the phrase leaves alone: what it puts out and
the operators that then wait make up the listing. -/
structure Shunts (strength : Nat) (tokens : List Token) (l : List Entry) (out : List Item)
    (pending : List (Operator × Nat)) : Prop where
  listing : (out ++ pending.map Postfix.released).map Item.entry = l
  tight : ∀ q ∈ pending, strength ≤ q.1.precedence
  shunt : ∀ stack rest, Postfix.Blocks strength stack →
    Postfix.shunt stack (tokens ++ rest) =
      out ++ Postfix.shunt (pending.map Postfix.waits ++ stack) rest

theorem Shunts.weaken {m k : Nat} {tokens : List Token} {out : List Item}
    {pending : List (Operator × Nat)} (h : Shunts k tokens l out pending) (hle : m ≤ k) :
    Shunts m tokens l out pending where
  listing := h.listing
  tight q hq := Nat.le_trans hle (h.tight q hq)
  shunt stack rest hstack := h.shunt stack rest (hstack.mono hle)

/-- An operator behind a phrase releases what waits of it. -/
theorem Shunts.operator {strength : Nat} {tokens : List Token} {out : List Item}
    {pending : List (Operator × Nat)} (h : Shunts strength tokens l out pending) {op : Operator}
    (hop : op.precedence = strength) (position : Nat) {stack : List Postfix.Waiting}
    (hstack : Postfix.Blocks strength stack) (rest : List Token) :
    Postfix.shunt stack (tokens ++ ⟨.operator op, position⟩ :: rest) =
      (out ++ pending.map Postfix.released) ++
        Postfix.shunt (.operator op position :: stack) rest := by
  subst hop
  rw [h.shunt stack _ hstack, Postfix.shunt]
  simp only [Postfix.releaseTighter_waits hstack h.tight, List.append_assoc]

/-- A binary operator between two phrases. -/
theorem Shunts.binary {m k : Nat} {tokens tokens' : List Token} {l l' : List Entry}
    {out out' : List Item} {pending pending' : List (Operator × Nat)}
    (h : Shunts m tokens l out pending) (h' : Shunts k tokens' l' out' pending') {op : Operator}
    (hop : op.precedence = m) (hlt : m < k) (position : Nat) :
    Shunts m (tokens ++ ⟨.operator op, position⟩ :: tokens') (l ++ l' ++ [.operator op])
      (out ++ pending.map Postfix.released ++ out') (pending' ++ [(op, position)]) where
  listing := by
    rw [← h.listing, ← h'.listing]
    simp [Postfix.released]
  tight q hq := by
    rcases List.mem_append.mp hq with hq | hq
    · exact Nat.le_trans (Nat.le_of_lt hlt) (h'.tight q hq)
    · obtain rfl := List.mem_singleton.mp hq
      exact Nat.le_of_eq hop.symm
  shunt stack rest hstack := by
    have hblocks : Postfix.Blocks k (.operator op position :: stack) := by
      rw [← hop] at hlt
      exact hlt
    rw [List.append_assoc, List.cons_append, h.operator hop position hstack,
      h'.shunt _ rest hblocks]
    simp [Postfix.waits]

/-- A star behind a factor releases what waits of it, and waits itself. -/
theorem Shunts.star {tokens : List Token} {out : List Item} {pending : List (Operator × Nat)}
    (h : Shunts Phrase.factor.strength tokens l out pending) (position : Nat) :
    Shunts Phrase.factor.strength (tokens ++ [⟨.operator .star, position⟩])
      (l ++ [.operator .star]) (out ++ pending.map Postfix.released) [(.star, position)] where
  listing := by
    rw [← h.listing]
    simp [Postfix.released]
  tight q hq := by
    obtain rfl := List.mem_singleton.mp hq
    exact Nat.le_refl _
  shunt stack rest hstack := by
    rw [List.append_assoc, List.singleton_append, h.operator rfl _ hstack]
    rfl

/-- Parentheses keep the stack apart, and the closing one releases what waits inside. -/
theorem Shunts.group {tokens : List Token} {out : List Item} {pending : List (Operator × Nat)}
    (h : Shunts Phrase.expression.strength tokens l out pending) (strength first last : Nat) :
    Shunts strength (⟨.openParen, first⟩ :: (tokens ++ [⟨.closeParen, last⟩])) l
      (out ++ pending.map Postfix.released) [] where
  listing := by rw [← h.listing, List.map_nil, List.append_nil]
  tight := by simp
  shunt stack rest _ := by
    have hblocks : Postfix.Blocks Phrase.expression.strength (.group :: stack) := trivial
    rw [List.cons_append, Postfix.shunt, List.append_assoc, List.singleton_append]
    dsimp only
    rw [h.shunt _ _ hblocks, Postfix.shunt]
    simp only [Postfix.closeGroup_waits, List.map_nil, List.nil_append, List.append_assoc]

/-- **Shunting a phrase lists it.** -/
theorem shunts_of_outlined (h : Outlined p ks l n) : ∀ {tokens : List Token},
    tokens.map Token.kind = ks →
      ∃ out pending, Shunts p.strength (Postfix.joinFrom false tokens) l out pending := by
  induction h with
  | leaf s =>
    intro tokens htokens
    obtain ⟨position, rfl⟩ := Postfix.eq_singleton_of_map_kind htokens
    exact ⟨[⟨.leaf s, position⟩], [], rfl, by simp, fun stack rest _ => rfl⟩
  | empty =>
    intro tokens htokens
    obtain ⟨⟨_, _⟩, _, rfl, rfl, hclosing⟩ := List.map_eq_cons_iff.mp htokens
    obtain ⟨_, rfl⟩ := Postfix.eq_singleton_of_map_kind hclosing
    exact ⟨[], [], rfl, by simp, fun stack rest _ => rfl⟩
  | @group ks l n h ih =>
    intro tokens htokens
    obtain ⟨⟨_, first⟩, _, rfl, rfl, hinside⟩ := List.map_eq_cons_iff.mp htokens
    obtain ⟨inner, _, rfl, rfl, hclosing⟩ := List.map_eq_append_iff.mp hinside
    obtain ⟨last, rfl⟩ := Postfix.eq_singleton_of_map_kind hclosing
    obtain ⟨out, pending, hinner⟩ := ih rfl
    have hjoin : Postfix.joinFrom false (⟨.openParen, first⟩ :: (inner ++ [⟨.closeParen, last⟩])) =
        ⟨.openParen, first⟩ :: (Postfix.joinFrom false inner ++ [⟨.closeParen, last⟩]) := by
      have hinside : Postfix.joinFrom false (inner ++ [⟨.closeParen, last⟩]) = _ :=
        Postfix.joinFrom_outlined_append h false _
      rw [Postfix.joinFrom_cons rfl, Postfix.joinFrom] at hinside
      exact congrArg _ hinside
    rw [hjoin]
    exact ⟨_, _, hinner.group _ first last⟩
  | ofAtom _ ih =>
    intro tokens htokens
    obtain ⟨out, pending, hshunts⟩ := ih htokens
    exact ⟨out, pending, hshunts.weaken (by decide)⟩
  | @star ks l n h ih =>
    intro tokens htokens
    obtain ⟨inner, _, rfl, rfl, hlast⟩ := List.map_eq_append_iff.mp htokens
    obtain ⟨position, rfl⟩ := Postfix.eq_singleton_of_map_kind hlast
    obtain ⟨out, pending, hinner⟩ := ih rfl
    rw [Postfix.joinFrom_outlined_append h, Postfix.joinFrom_cons rfl, Postfix.joinFrom]
    exact ⟨_, _, hinner.star position⟩
  | ofFactor _ ih =>
    intro tokens htokens
    obtain ⟨out, pending, hshunts⟩ := ih htokens
    exact ⟨out, pending, hshunts.weaken (by decide)⟩
  | @concat ks ks' l l' n n' hl hr ihl ihr =>
    intro tokens htokens
    obtain ⟨left, right, rfl, rfl, rfl⟩ := List.map_eq_append_iff.mp htokens
    obtain ⟨out, pending, hleft⟩ := ihl rfl
    obtain ⟨out', pending', hright⟩ := ihr rfl
    obtain ⟨position, hjoin⟩ := Postfix.joinFrom_true hr
    rw [Postfix.joinFrom_outlined_append hl, hjoin]
    exact ⟨_, _, hleft.binary hright rfl (by decide) position⟩
  | ofTerm _ ih =>
    intro tokens htokens
    obtain ⟨out, pending, hshunts⟩ := ih htokens
    exact ⟨out, pending, hshunts.weaken (by decide)⟩
  | @union ks ks' l l' n n' hl hr ihl ihr =>
    intro tokens htokens
    obtain ⟨left, _, rfl, rfl, hright⟩ := List.map_eq_append_iff.mp htokens
    obtain ⟨⟨_, position⟩, right, rfl, rfl, rfl⟩ := List.map_eq_cons_iff.mp hright
    obtain ⟨out, pending, hleft⟩ := ihl rfl
    obtain ⟨out', pending', hright⟩ := ihr rfl
    rw [Postfix.joinFrom_outlined_append hl, Postfix.joinFrom_cons rfl]
    exact ⟨_, _, hleft.binary hright rfl (by decide) position⟩

/-- At the end of the text all that waits is released. -/
theorem Shunts.shunt_insertConcat {tokens : List Token} {out : List Item}
    {pending : List (Operator × Nat)}
    (h : Shunts Phrase.expression.strength (Postfix.joinFrom false tokens) l out pending) :
    Postfix.shunt [] (Postfix.insertConcat tokens) = out ++ pending.map Postfix.released := by
  have hblocks : Postfix.Blocks Phrase.expression.strength [] := trivial
  have hall := h.shunt [] [] hblocks
  rw [List.append_nil, List.append_nil, Postfix.shunt, Postfix.releaseAll_waits] at hall
  rw [Postfix.insertConcat_eq_joinFrom, hall]

/-- **The listing of tokens that outline one.** -/
theorem entries_of_outlined {tokens : List Token}
    (h : Outlined .expression (tokens.map Token.kind) l n) :
    (Postfix.shunt [] (Postfix.insertConcat tokens)).map Item.entry = l := by
  obtain ⟨out, pending, hshunts⟩ := shunts_of_outlined h rfl
  rw [hshunts.shunt_insertConcat]
  exact hshunts.listing

/-! ## 4. Reading a listing -/

namespace Postfix

/-! An operator stands behind the items of its operands. -/

theorem exists_items_of_unary {items : List Item} {x : Entry}
    (h : items.map Item.entry = l ++ [x]) :
    ∃ inner position, items = inner ++ [⟨x, position⟩] ∧ inner.map Item.entry = l := by
  obtain ⟨inner, _, rfl, hinner, hlast⟩ := List.map_eq_append_iff.mp h
  obtain ⟨⟨_, position⟩, rfl, rfl⟩ := List.map_eq_singleton_iff.mp hlast
  exact ⟨inner, position, rfl, hinner⟩

theorem exists_items_of_binary {items : List Item} {l' : List Entry} {x : Entry}
    (h : items.map Item.entry = l ++ l' ++ [x]) :
    ∃ left right position, items = left ++ (right ++ [⟨x, position⟩]) ∧
      left.map Item.entry = l ∧ right.map Item.entry = l' := by
  obtain ⟨_, position, rfl, hoperands⟩ := exists_items_of_unary h
  obtain ⟨left, right, rfl, hleft, hright⟩ := List.map_eq_append_iff.mp hoperands
  exact ⟨left, right, position, List.append_assoc _ _ _, hleft, hright⟩

/-- **Reading the listing of an expression gives the expression.** -/
theorem evaluate_listing (e : Regex) : ∀ {items : List Item} (stack : List Regex)
    (rest : List Item), items.map Item.entry = e.listing →
      evaluate stack (items ++ rest) = evaluate (e :: stack) rest := by
  induction e with
  | leaf s =>
    intro items stack rest h
    obtain ⟨⟨_, _⟩, rfl, rfl⟩ := List.map_eq_singleton_iff.mp h
    rfl
  | concat a b iha ihb =>
    intro items stack rest h
    obtain ⟨left, right, _, rfl, hleft, hright⟩ := exists_items_of_binary h
    rw [List.append_assoc, List.append_assoc, iha _ _ hleft, ihb _ _ hright]
    rfl
  | union a b iha ihb =>
    intro items stack rest h
    obtain ⟨left, right, _, rfl, hleft, hright⟩ := exists_items_of_binary h
    rw [List.append_assoc, List.append_assoc, iha _ _ hleft, ihb _ _ hright]
    rfl
  | star a iha =>
    intro items stack rest h
    obtain ⟨inner, _, rfl, hinner⟩ := exists_items_of_unary h
    rw [List.append_assoc, iha _ _ hinner]
    rfl

theorem evaluate_listing_nil {e : Regex} {items : List Item}
    (h : items.map Item.entry = e.listing) : evaluate [] items = .ok [e] := by
  have hall := evaluate_listing e [] [] h
  rw [List.append_nil] at hall
  exact hall

end Postfix

/-- **An expression is determined by its listing.** -/
theorem Regex.listing_injective {e e' : Regex} (h : e.listing = e'.listing) : e = e' := by
  have hentry : ∀ l : List Entry, (l.map fun x => Item.mk x 0).map Item.entry = l := by
    intro l
    rw [List.map_map]
    exact List.map_id l
  have hread := Postfix.evaluate_listing_nil (hentry e.listing)
  rw [h, Postfix.evaluate_listing_nil (hentry e'.listing)] at hread
  exact (List.singleton_inj.mp (Except.ok.inj hread)).symm

/-- **Tokens are written for one expression at most.** -/
theorem Written.unique {tokens : List Token} {e e' : Regex}
    (h : Written .expression (tokens.map Token.kind) e)
    (h' : Written .expression (tokens.map Token.kind) e') : e = e' := by
  refine Regex.listing_injective ?_
  rw [← entries_of_outlined h.outlined, ← entries_of_outlined h'.outlined]

/-! ## 5. Operands and operators -/

/-- Whether an entry adds a result. -/
def Entry.isLeaf : Entry → Bool
  | .leaf _ => true
  | .operator _ => false

/-- Whether an entry makes one result of two. -/
def Entry.isBinary : Entry → Bool
  | .operator .concat => true
  | .operator .union => true
  | _ => false

/-- A listing has an operand too few for each empty group. -/
theorem Outlined.count (h : Outlined p ks l n) :
    l.countP Entry.isLeaf + n = l.countP Entry.isBinary + 1 := by
  induction h with
  | leaf s => rfl
  | empty => rfl
  | group _ ih => exact ih
  | ofAtom _ ih => exact ih
  | star _ ih => simpa [Entry.isLeaf, Entry.isBinary] using ih
  | ofFactor _ ih => exact ih
  | concat _ _ ihl ihr =>
    simp only [List.countP_append, List.countP_singleton, Entry.isLeaf, Entry.isBinary]
    simp only [Bool.false_eq_true, if_true, if_false]
    omega
  | ofTerm _ ih => exact ih
  | union _ _ ihl ihr =>
    simp only [List.countP_append, List.countP_singleton, Entry.isLeaf, Entry.isBinary]
    simp only [Bool.false_eq_true, if_true, if_false]
    omega

/-- What is left when a listing is read: each leaf adds a result, and each binary operator takes
one away. -/
theorem Postfix.length_of_evaluate : ∀ {items : List Item} {stack left : List Regex},
    evaluate stack items = .ok left →
      left.length + (items.map Item.entry).countP Entry.isBinary =
        stack.length + (items.map Item.entry).countP Entry.isLeaf
  | [], stack, left, h => by
    obtain rfl := Except.ok.inj h
    rfl
  | ⟨.leaf s, position⟩ :: rest, stack, left, h => by
    have hrest := @length_of_evaluate rest (.leaf s :: stack) left h
    simp only [List.map_cons, List.countP_cons, Entry.isLeaf, Entry.isBinary, List.length_cons]
      at hrest ⊢
    simp only [Bool.false_eq_true, if_true, if_false]
    omega
  | ⟨.operator .star, position⟩ :: rest, [], left, h => by contradiction
  | ⟨.operator .star, position⟩ :: rest, e :: stack, left, h => by
    have hrest := @length_of_evaluate rest (.star e :: stack) left h
    simp only [List.map_cons, List.countP_cons, Entry.isLeaf, Entry.isBinary, List.length_cons]
      at hrest ⊢
    simp only [Bool.false_eq_true, if_false]
    omega
  | ⟨.operator .concat, position⟩ :: rest, [], left, h => by contradiction
  | ⟨.operator .concat, position⟩ :: rest, [_], left, h => by contradiction
  | ⟨.operator .concat, position⟩ :: rest, r :: l :: stack, left, h => by
    have hrest := @length_of_evaluate rest (.concat l r :: stack) left h
    simp only [List.map_cons, List.countP_cons, Entry.isLeaf, Entry.isBinary, List.length_cons]
      at hrest ⊢
    simp only [Bool.false_eq_true, if_true, if_false]
    omega
  | ⟨.operator .union, position⟩ :: rest, [], left, h => by contradiction
  | ⟨.operator .union, position⟩ :: rest, [_], left, h => by contradiction
  | ⟨.operator .union, position⟩ :: rest, r :: l :: stack, left, h => by
    have hrest := @length_of_evaluate rest (.union l r :: stack) left h
    simp only [List.map_cons, List.countP_cons, Entry.isLeaf, Entry.isBinary, List.length_cons]
      at hrest ⊢
    simp only [Bool.false_eq_true, if_true, if_false]
    omega

end FormalLang
