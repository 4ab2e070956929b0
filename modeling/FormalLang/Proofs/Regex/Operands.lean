import FormalLang.Proofs.Lapse
import FormalLang.Proofs.Regex.Acceptance

/-!
# Listings are complete

A pass that keeps tokens on its operator stack, parentheses among them, can put a parenthesis into a
listing, and a listing can leave more than one operand.  Here the front end is written out on tokens
with a lapse in both cases.  It has none, whatever the text (`Postfix.tryOfText_eq`), nor with the
end marker behind the text (`Postfix.tryAugmentedOfText_eq`).

* **Parentheses.**  The stack holds as many of them as groups are open (`Holds`).  A text whose
  parentheses match leaves no group open, so that none is left to be written at the end.
* **Operands.**  Each leaf adds an operand and each binary operator takes one away.  A text that
  passes the checks outlines a listing with one operand, less one for each empty group
  (`Outlined.count`).  So there may be too few, which is reported, but never too many.
-/

namespace FormalLang

/-! ## 1. Passes over tokens -/

/-- The kind of the token that an entry is written with. -/
def Entry.kind : Entry → TokenKind
  | .leaf s => .leaf s
  | .operator op => .operator op

/-- The token of an item. -/
def Item.token (item : Item) : Token := ⟨item.entry.kind, item.position⟩

/-- The character a token is written with. -/
def Token.toChar (token : Token) : Char :=
  match token.kind with
  | .leaf s => s.toChar
  | .openParen => '('
  | .closeParen => ')'
  | .operator op => op.toChar

/-- How many operands an operator takes. -/
def Operator.arity : Operator → Nat
  | .star => 1
  | .concat => 2
  | .union => 2

namespace Postfix

/-- Releases the tokens above the innermost `(`, and drops that. -/
def closeTokens : List Token → List Token × List Token
  | [] => ([], [])
  | top :: rest =>
    if top.kind = .openParen then ([], rest)
    else
      let released := closeTokens rest
      (top :: released.1, released.2)

/-- Releases the operators that bind at least as tightly as `op`, up to the innermost `(`. -/
def releaseTokens (op : Operator) : List Token → List Token × List Token
  | [] => ([], [])
  | top :: rest =>
    match top.kind with
    | .operator other =>
      if op.precedence ≤ other.precedence then
        let released := releaseTokens op rest
        (top :: released.1, released.2)
      else ([], top :: rest)
    | _ => ([], top :: rest)

/-- The shunting-yard pass with tokens on the stack.  What is left there is released at the end,
whatever it is. -/
def shuntTokens (stack : List Token) : List Token → List Token
  | [] => stack
  | token :: rest =>
    match token.kind with
    | .leaf _ => token :: shuntTokens stack rest
    | .openParen => shuntTokens (token :: stack) rest
    | .closeParen =>
      let released := closeTokens stack
      released.1 ++ shuntTokens released.2 rest
    | .operator op =>
      let released := releaseTokens op stack
      released.1 ++ shuntTokens (token :: released.2) rest

/-- Counts the operands of a listing, and reports the first operator that finds too few. -/
def tryCheckOperands (depth : Nat) : List Token → Except Lapse (Except RegexError Unit)
  | [] =>
    if depth = 0 then .ok (.error .emptyExpression)
    else if depth = 1 then .ok (.ok ())
    else .error .operandsLeft
  | token :: rest =>
    match token.kind with
    | .leaf _ => tryCheckOperands (depth + 1) rest
    | .operator op =>
      if depth < op.arity then .ok (.error (.missingOperand op.toChar token.position))
      else tryCheckOperands (depth + 1 - op.arity) rest
    | _ => .error .parenInListing

/-- The listing of a sequence of tokens. -/
def tryOfTokens (tokens : List Token) : Except Lapse (Except RegexError (List Token)) :=
  match checkParens [] tokens with
  | .error e => .ok (.error e)
  | .ok () =>
    let explicit := insertConcat tokens
    match checkOperators false explicit with
    | .error e => .ok (.error e)
    | .ok () =>
      let listing := shuntTokens [] explicit
      match tryCheckOperands 0 listing with
      | .error l => .error l
      | .ok (.error e) => .ok (.error e)
      | .ok (.ok ()) => .ok (.ok listing)

/-- The listing of a text. -/
def tryOfText (cs : List Char) : Except Lapse (Except RegexError (List Token)) :=
  match Token.scan cs with
  | .error e => .ok (.error e)
  | .ok tokens => tryOfTokens tokens

/-- The listing of a text with the end marker behind it. -/
def tryAugmentedOfText (cs : List Char) : Except Lapse (Except RegexError (List Token)) :=
  match Token.scan cs with
  | .error e => .ok (.error e)
  | .ok tokens =>
    match tryOfTokens tokens with
    | .error l => .error l
    | .ok (.error e) => .ok (.error e)
    | .ok (.ok _) => tryOfTokens (augmentTokens cs.length tokens)

/-- The tokens of a listing. -/
def tokens (p : Postfix) : List Token := p.items.map Item.token

/-! ## 2. Parentheses -/

/-- **A stack of tokens** that holds what waits, and a number of open groups. -/
inductive Holds : List Token → List Waiting → Nat → Prop where
  | nil : Holds [] [] 0
  | group (position : Nat) {tokens : List Token} {stack : List Waiting} {n : Nat}
      (h : Holds tokens stack n) :
      Holds (⟨.openParen, position⟩ :: tokens) (.group :: stack) (n + 1)
  | operator (op : Operator) (position : Nat) {tokens : List Token} {stack : List Waiting} {n : Nat}
      (h : Holds tokens stack n) :
      Holds (⟨.operator op, position⟩ :: tokens) (.operator op position :: stack) n

variable {held : List Token} {stack : List Waiting} {n : Nat}

/-- A `)` closes a group that is open. -/
theorem Holds.close (h : Holds held stack n) : ∀ {m : Nat}, n = m + 1 →
    (closeTokens held).1 = (closeGroup stack).1.map Item.token ∧
      Holds (closeTokens held).2 (closeGroup stack).2 m := by
  induction h with
  | nil => nofun
  | group position h _ =>
    intro m hm
    obtain rfl := Nat.succ.inj hm
    exact ⟨rfl, h⟩
  | operator op position _ ih =>
    intro m hm
    obtain ⟨hreleased, hrest⟩ := ih hm
    exact ⟨congrArg (_ :: ·) hreleased, hrest⟩

theorem Holds.release (h : Holds held stack n) (op : Operator) :
    (releaseTokens op held).1 = (releaseTighter op stack).1.map Item.token ∧
      Holds (releaseTokens op held).2 (releaseTighter op stack).2 n := by
  induction h with
  | nil => exact ⟨rfl, .nil⟩
  | group position h _ => exact ⟨rfl, .group position h⟩
  | operator other position h ih =>
    obtain ⟨hreleased, hrest⟩ := ih
    simp only [releaseTokens, releaseTighter]
    split
    · exact ⟨congrArg (_ :: ·) hreleased, hrest⟩
    · exact ⟨rfl, .operator other position h⟩

/-- With no group open there is no parenthesis to be written. -/
theorem Holds.releaseAll (h : Holds held stack n) : n = 0 →
    held = (Postfix.releaseAll stack).map Item.token := by
  induction h with
  | nil => exact fun _ => rfl
  | group _ _ _ => nofun
  | operator op position _ ih =>
    intro hn
    rw [ih hn]
    rfl

/-- A concatenation is no parenthesis. -/
theorem checkParens_joinFrom : ∀ {tokens : List Token} {joined : Bool} {opened : List Nat},
    checkParens opened (joinFrom joined tokens) = checkParens opened tokens
  | [], _, _ => rfl
  | token :: rest, joined, opened => by
    have htoken : checkParens opened (token :: joinFrom token.kind.endsOperand rest) =
        checkParens opened (token :: rest) := by
      rw [checkParens_cons, checkParens_cons]
      split
      · exact checkParens_joinFrom
      · split
        · rfl
        · exact checkParens_joinFrom
      · exact checkParens_joinFrom
    rw [joinFrom]
    split
    · rw [checkParens_cons]
      exact htoken
    · exact htoken

/-- **No parenthesis gets into the listing** of tokens whose parentheses match. -/
theorem shuntTokens_eq : ∀ {tokens held : List Token} {stack : List Waiting} {opened : List Nat},
    Holds held stack opened.length → checkParens opened tokens = .ok () →
      shuntTokens held tokens = (shunt stack tokens).map Item.token
  | [], held, stack, opened, hheld, hparens => by
    rcases opened with _ | ⟨position, outer⟩
    · exact hheld.releaseAll rfl
    · contradiction
  | ⟨kind, position⟩ :: rest, held, stack, opened, hheld, hparens => by
    rw [checkParens_cons] at hparens
    rcases kind with s | _ | _ | op
    · have hrest := shuntTokens_eq hheld hparens
      exact congrArg (_ :: ·) hrest
    · exact @shuntTokens_eq rest _ _ (position :: opened) (.group position hheld) hparens
    · rcases opened with _ | ⟨_, outer⟩
      · contradiction
      · obtain ⟨hreleased, hclosed⟩ := hheld.close rfl
        have hrest := shuntTokens_eq hclosed hparens
        simp only [shuntTokens, shunt, List.map_append, hreleased, hrest]
    · obtain ⟨hreleased, hkept⟩ := hheld.release op
      have hrest := shuntTokens_eq (.operator op position hkept) hparens
      simp only [shuntTokens, shunt, List.map_append, hreleased, hrest]

/-! ## 3. Operands -/

/-- What the operands that a listing leaves say about it. -/
def operandVerdict : Except RegexError (List Regex) → Except Lapse (Except RegexError Unit)
  | .error e => .ok (.error e)
  | .ok [] => .ok (.error .emptyExpression)
  | .ok [_] => .ok (.ok ())
  | .ok (_ :: _ :: _) => .error .operandsLeft

/-- **Counting operands and reading them come to the same.** -/
theorem tryCheckOperands_eq : ∀ {items : List Item} {stack : List Regex},
    tryCheckOperands stack.length (items.map Item.token) = operandVerdict (evaluate stack items)
  | [], [] => rfl
  | [], [_] => rfl
  | [], _ :: _ :: _ => rfl
  | ⟨.leaf s, _⟩ :: rest, stack => @tryCheckOperands_eq rest (.leaf s :: stack)
  | ⟨.operator .star, _⟩ :: _, [] => rfl
  | ⟨.operator .star, _⟩ :: rest, e :: stack => @tryCheckOperands_eq rest (.star e :: stack)
  | ⟨.operator .concat, _⟩ :: _, [] => rfl
  | ⟨.operator .concat, _⟩ :: _, [_] => rfl
  | ⟨.operator .concat, _⟩ :: rest, r :: l :: stack =>
    @tryCheckOperands_eq rest (.concat l r :: stack)
  | ⟨.operator .union, _⟩ :: _, [] => rfl
  | ⟨.operator .union, _⟩ :: _, [_] => rfl
  | ⟨.operator .union, _⟩ :: rest, r :: l :: stack =>
    @tryCheckOperands_eq rest (.union l r :: stack)

/-- **A listing of tokens that pass the checks leaves at most one operand.** -/
theorem length_le_one_of_checks {tokens : List Token} {left : List Regex}
    (hne : TokenKind.operator .concat ∉ tokens.map Token.kind)
    (hparens : checkParens [] tokens = .ok ())
    (hoperators : checkOperators false (insertConcat tokens) = .ok ())
    (hread : evaluate [] (shunt [] (insertConcat tokens)) = .ok left) : left.length ≤ 1 := by
  rcases outlined_of_checks hne hparens hoperators with rfl | ⟨l, n, houtlined⟩
  · obtain rfl := Except.ok.inj hread
    exact Nat.zero_le 1
  · have hlength := length_of_evaluate hread
    have hcount := houtlined.count
    rw [entries_of_outlined houtlined, List.length_nil] at hlength
    omega

/-! ## 4. The front end -/

/-- **The listing of tokens has no parentheses and leaves one operand**, if there is a listing. -/
theorem tryOfTokens_eq {tokens : List Token}
    (hne : TokenKind.operator .concat ∉ tokens.map Token.kind) :
    tryOfTokens tokens = .ok ((ofTokens tokens).map Postfix.tokens) := by
  rw [tryOfTokens, ofTokens]
  cases hparens : checkParens [] tokens with
  | error e => rfl
  | ok _ =>
    dsimp only
    cases hoperators : checkOperators false (insertConcat tokens) with
    | error e => rfl
    | ok _ =>
      have hexplicit : checkParens [] (insertConcat tokens) = .ok () := by
        rw [insertConcat_eq_joinFrom, checkParens_joinFrom]
        exact hparens
      have hcount := @tryCheckOperands_eq (shunt [] (insertConcat tokens)) []
      dsimp only
      rw [shuntTokens_eq .nil hexplicit]
      rw [List.length_nil] at hcount
      rw [hcount]
      cases hread : evaluate [] (shunt [] (insertConcat tokens)) with
      | error e => rfl
      | ok left =>
        have hlength := length_le_one_of_checks hne hparens hoperators hread
        rcases left with _ | ⟨e, _ | ⟨e', below⟩⟩
        · rfl
        · rfl
        · simp at hlength

/-- **The front end has no lapse**, whatever the text. -/
theorem tryOfText_eq (cs : List Char) : tryOfText cs = .ok ((ofText cs).map Postfix.tokens) := by
  rw [tryOfText, ofText]
  cases hscan : Token.scan cs with
  | error e => rfl
  | ok tokens => exact tryOfTokens_eq (concat_not_mem_of_charIs (Token.kinds_of_scanFrom hscan))

/-- **Nor has it on an augmented text.** -/
theorem tryAugmentedOfText_eq (cs : List Char) :
    tryAugmentedOfText cs = .ok ((augmentedOfText cs).map Postfix.tokens) := by
  rw [tryAugmentedOfText, augmentedOfText]
  cases hscan : Token.scan cs with
  | error e => rfl
  | ok tokens =>
    have hne := concat_not_mem_of_charIs (Token.kinds_of_scanFrom hscan)
    dsimp only
    rw [tryOfTokens_eq hne]
    cases ofTokens tokens with
    | error e => rfl
    | ok p => exact tryOfTokens_eq (concat_not_mem_augmentTokens hne cs.length)

/-- The text of a listing is that of its tokens. -/
theorem text_eq (p : Postfix) : p.text = String.ofList (p.tokens.map Token.toChar) := by
  have hchar : ∀ item : Item, item.token.toChar = item.entry.toChar := by
    rintro ⟨_ | _, _⟩
    · rfl
    · rfl
  rw [text, tokens, List.map_map]
  exact congrArg String.ofList (List.map_congr_left fun item _ => (hchar item).symm)

end Postfix

end FormalLang
