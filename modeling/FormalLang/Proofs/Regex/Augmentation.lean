import FormalLang.Conversion
import FormalLang.Proofs.Regex.Acceptance
import FormalLang.Proofs.Regex.Operands

/-!
# The end marker changes nothing else

The followpos construction reads a text in parentheses with the end marker behind it.  All passes of
the front end run again on these tokens, and come to what they came to before, with the end marker
and one concatenation behind it (`Postfix.augmentedOfText_eq`).  So both constructions reject the
same texts, for the same reasons (`augmentation_conservative`).

* **The concatenation.**  A text that is accepted begins and ends with an operand, and so does the
  group around it.  Nothing is put in at the parentheses, and one concatenation behind the group
  (`Postfix.insertConcat_augmentTokens`).
* **The group.**  What a phrase puts out does not depend on what waits below it.  The closing
  parenthesis releases what the end of the text would release (`Postfix.shunt_augmentTokens`).
* **No new error.**  Around an expression and the end marker an expression is written, and what is
  written is accepted (`Postfix.ofTokens_augmentTokens`).
-/

namespace FormalLang

/-! ## 1. Tokens -/

namespace Postfix

variable {tokens : List Token}

/-- **One concatenation is put in**: behind the group. -/
theorem insertConcat_augmentTokens {l : List Entry} {n : Nat}
    (h : Outlined .expression (tokens.map Token.kind) l n) (length : Nat) :
    insertConcat (augmentTokens length tokens) =
      (⟨.openParen, 0⟩ :: (joinFrom false tokens ++ [⟨.closeParen, length⟩])) ++
        [⟨.operator .concat, length⟩, ⟨.leaf .endMarker, length⟩] := by
  have hinside : joinFrom false (tokens ++ [⟨.closeParen, length⟩, ⟨.leaf .endMarker, length⟩]) =
      joinFrom false tokens ++
        joinFrom true [⟨.closeParen, length⟩, ⟨.leaf .endMarker, length⟩] :=
    joinFrom_outlined_append h false _
  have hbehind : joinFrom true [⟨.closeParen, length⟩, ⟨.leaf .endMarker, length⟩] =
      [⟨.closeParen, length⟩, ⟨.operator .concat, length⟩, ⟨.leaf .endMarker, length⟩] := rfl
  rw [insertConcat_eq_joinFrom, augmentTokens, List.cons_append, joinFrom_false_cons]
  dsimp only [TokenKind.endsOperand]
  rw [hinside, hbehind]
  simp

/-! ## 2. Shunting -/

/-- **A group is put out as its inside is at top level**, and then the end marker and the
concatenation. -/
theorem shunt_augmentTokens {l : List Entry} {n : Nat}
    (h : Outlined .expression (tokens.map Token.kind) l n) (length : Nat) :
    shunt [] (insertConcat (augmentTokens length tokens)) =
      shunt [] (insertConcat tokens) ++
        [⟨.leaf .endMarker, length⟩, ⟨.operator .concat, length⟩] := by
  obtain ⟨out, pending, hshunts⟩ := shunts_of_outlined h rfl
  have hblocks : Blocks Phrase.term.strength [] := trivial
  have hgroup := (hshunts.group Phrase.term.strength 0 length).shunt []
    [⟨.operator .concat, length⟩, ⟨.leaf .endMarker, length⟩] hblocks
  rw [insertConcat_augmentTokens h, hgroup, hshunts.shunt_insertConcat]
  rfl

/-! ## 3. The front end -/

/-- What is listed is what is put out. -/
theorem items_of_ofTokens {p : Postfix} (h : ofTokens tokens = .ok p) :
    p.items = shunt [] (insertConcat tokens) := by
  unfold ofTokens at h
  split at h
  · contradiction
  · dsimp only at h
    split at h
    · contradiction
    · split at h
      · contradiction
      · contradiction
      · obtain rfl := Except.ok.inj h
        rfl

/-- A listing with the end marker behind it, and the concatenation that joins them, both at one
position. -/
def withEndMarker (p : Postfix) (position : Nat) : Postfix where
  items := p.items ++ [⟨.leaf .endMarker, position⟩, ⟨.operator .concat, position⟩]
  expression := .concat p.expression (.leaf .endMarker)

/-- **The passes go through once more.** -/
theorem ofTokens_augmentTokens (hne : TokenKind.operator .concat ∉ tokens.map Token.kind)
    {p : Postfix} (h : ofTokens tokens = .ok p) (length : Nat) :
    ofTokens (augmentTokens length tokens) = .ok (p.withEndMarker length) := by
  obtain ⟨hwritten, -⟩ := written_of_ofTokens hne h
  have haugmented := written_augmentTokens hwritten length
  have hne' := concat_not_mem_augmentTokens hne length
  obtain ⟨q, hq⟩ := exists_ofTokens_of_written hne' haugmented
  have hitems : q.items = (p.withEndMarker length).items := by
    rw [items_of_ofTokens hq, shunt_augmentTokens hwritten.outlined, ← items_of_ofTokens h]
    rfl
  have hexpression : q.expression = (p.withEndMarker length).expression :=
    (written_of_ofTokens hne' hq).1.unique haugmented
  rw [hq]
  exact congrArg Except.ok (congrArg₂ Postfix.mk hitems hexpression)

/-- **The listing of an augmented text** is that of the text with the end marker behind it. -/
theorem augmentedOfText_eq (cs : List Char) :
    augmentedOfText cs = (ofText cs).map fun p => p.withEndMarker cs.length := by
  rw [augmentedOfText, ofText]
  cases hscan : Token.scan cs with
  | error e => rfl
  | ok tokens =>
    have hne := concat_not_mem_of_charIs (Token.kinds_of_scanFrom hscan)
    dsimp only
    cases hread : ofTokens tokens with
    | error e => rfl
    | ok p => exact ofTokens_augmentTokens hne hread cs.length

end Postfix

/-! ## 4. Both constructions -/

/-- A computation that goes on without errors has the errors of what it goes on from. -/
theorem map_eq_error_iff {ε α β : Type} {x : Except ε α} {f : α → β} {e : ε} :
    x.map f = .error e ↔ x = .error e := by
  cases x with
  | error e' => simp [Except.map]
  | ok a => simp [Except.map]

theorem thompson_eq (cs : List Char) :
    thompson cs = (Postfix.ofText cs).map ThompsonConversion.ofPostfix := by
  rw [thompson]
  cases Postfix.ofText cs with
  | error e => rfl
  | ok p => rfl

theorem syntaxTree_eq (cs : List Char) :
    syntaxTree cs = (Postfix.augmentedOfText cs).map SyntaxTreeConversion.ofPostfix := by
  rw [syntaxTree]
  cases Postfix.augmentedOfText cs with
  | error e => rfl
  | ok p => rfl

/-- **The augmentation is conservative.**

A text is rejected with the end marker behind it if and only if it is rejected without, and with the
same error, so that both constructions reject the same texts with equal errors.  If it is accepted,
then its listing with the end marker behind it is the listing of the text, positions included, then
the end marker and one concatenation, both at the position behind the last character. -/
theorem augmentation_conservative (cs : List Char) :
    (∀ e, Postfix.augmentedOfText cs = .error e ↔ Postfix.ofText cs = .error e) ∧
    (∀ e, syntaxTree cs = .error e ↔ thompson cs = .error e) ∧
    ∀ p, Postfix.ofText cs = .ok p → ∃ q, Postfix.augmentedOfText cs = .ok q ∧
      q.items = p.items ++ [⟨.leaf .endMarker, cs.length⟩, ⟨.operator .concat, cs.length⟩] := by
  refine ⟨fun e => ?_, fun e => ?_, fun p hp => ?_⟩
  · rw [Postfix.augmentedOfText_eq, map_eq_error_iff]
  · rw [syntaxTree_eq, thompson_eq, Postfix.augmentedOfText_eq, map_eq_error_iff, map_eq_error_iff,
      map_eq_error_iff]
  · refine ⟨p.withEndMarker cs.length, ?_, rfl⟩
    rw [Postfix.augmentedOfText_eq, hp]
    rfl

/-- The union in `a|b` waits until its group is closed, and the empty group is reported where it
stands in the text. -/
theorem augmentation_conservative_union :
    syntaxTree "a|()".toList = .error (.missingOperand '|' 1) ∧
    Postfix.ofText "a|b".toList =
      .ok ⟨[⟨.leaf (.char 'a'), 0⟩, ⟨.leaf (.char 'b'), 2⟩, ⟨.operator .union, 1⟩],
        .union (.leaf (.char 'a')) (.leaf (.char 'b'))⟩ ∧
    ∃ q, Postfix.augmentedOfText "a|b".toList = .ok q ∧
      q.items = [⟨.leaf (.char 'a'), 0⟩, ⟨.leaf (.char 'b'), 2⟩, ⟨.operator .union, 1⟩,
        ⟨.leaf .endMarker, 3⟩, ⟨.operator .concat, 3⟩] := by
  have hempty : Postfix.ofText "a|()".toList = .error (.missingOperand '|' 1) := by decide
  have hread : Postfix.ofText "a|b".toList =
      .ok ⟨[⟨.leaf (.char 'a'), 0⟩, ⟨.leaf (.char 'b'), 2⟩, ⟨.operator .union, 1⟩],
        .union (.leaf (.char 'a')) (.leaf (.char 'b'))⟩ := by decide
  obtain ⟨-, herrors, -⟩ := augmentation_conservative "a|()".toList
  obtain ⟨-, -, hlisting⟩ := augmentation_conservative "a|b".toList
  refine ⟨(herrors _).mpr ?_, hread, hlisting _ hread⟩
  rw [thompson, hempty]

end FormalLang
