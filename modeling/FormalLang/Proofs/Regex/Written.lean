import FormalLang.Regex.Language
import FormalLang.Regex.Token
import Mathlib.Data.List.Forall2

/-!
# What the text of an expression means

The grammar of the texts, with `A` for a leaf or an expression in parentheses:

    E -> T | E "|" T        T -> F | T F        F -> A | F "*"        A -> leaf | "(" E ")"

`Written` reads it as a relation between tokens and expressions.  Concatenation is juxtaposition and
groups to the left, as the union does; a star binds tightest.  `TextDenotes` is the language of a
text: the words of an expression that the text is written for.

Nothing here mentions the passes of the front end, which are compared with it.
-/

namespace FormalLang

/-! ## 1. Characters -/

/-- Which token a character is. -/
inductive CharIs : Char → TokenKind → Prop where
  | openParen : CharIs '(' .openParen
  | closeParen : CharIs ')' .closeParen
  | union : CharIs '|' (.operator .union)
  | star : CharIs '*' (.operator .star)
  | epsilon : CharIs epsilonChar (.leaf .epsilon)
  | char {c : Char} (h : Text.isAlphanumeric c = true) (hne : c ≠ epsilonChar) :
      CharIs c (.leaf (.char c))

namespace Token

theorem kind_of_ofChar {c : Char} {position : Nat} {token : Token}
    (h : ofChar c position = .ok token) : CharIs c token.kind := by
  unfold ofChar at h
  split at h
  · rename_i hc
    obtain rfl := Except.ok.inj h
    exact hc ▸ .openParen
  split at h
  · rename_i hc
    obtain rfl := Except.ok.inj h
    exact hc ▸ .closeParen
  split at h
  · rename_i hc
    obtain rfl := Except.ok.inj h
    exact hc ▸ .union
  split at h
  · rename_i hc
    obtain rfl := Except.ok.inj h
    exact hc ▸ .star
  split at h
  · rename_i hc
    obtain rfl := Except.ok.inj h
    exact hc ▸ .epsilon
  split at h
  · contradiction
  split at h
  · rename_i hne _ halphanumeric
    obtain rfl := Except.ok.inj h
    exact .char halphanumeric hne
  · contradiction

/-- **The scan finds the token that each character is.** -/
theorem kinds_of_scanFrom : ∀ {cs : List Char} {position : Nat} {tokens : List Token},
    scanFrom position cs = .ok tokens → List.Forall₂ CharIs cs (tokens.map kind)
  | [], position, tokens, h => by
    obtain rfl := Except.ok.inj h
    exact .nil
  | c :: cs, position, tokens, h => by
    rw [scanFrom] at h
    split at h
    · contradiction
    · rename_i token htoken
      split at h
      · contradiction
      · rename_i rest hrest
        obtain rfl := Except.ok.inj h
        exact .cons (kind_of_ofChar htoken) (kinds_of_scanFrom hrest)

end Token

/-- A character is one token only. -/
theorem CharIs.unique {c : Char} {k k' : TokenKind} (h : CharIs c k) (h' : CharIs c k') :
    k = k' := by
  have hparen : Text.isAlphanumeric '(' = false := by decide
  have hclose : Text.isAlphanumeric ')' = false := by decide
  have hunion : Text.isAlphanumeric '|' = false := by decide
  have hstar : Text.isAlphanumeric '*' = false := by decide
  cases h <;> cases h' <;> simp_all [epsilonChar]

/-- Every token of a text is one of its characters. -/
theorem exists_charIs_of_mem {cs : List Char} {ks : List TokenKind}
    (h : List.Forall₂ CharIs cs ks) {k : TokenKind} (hk : k ∈ ks) : ∃ c ∈ cs, CharIs c k := by
  induction h with
  | nil => contradiction
  | cons hc _ ih =>
    rcases List.mem_cons.mp hk with rfl | hk
    · exact ⟨_, List.mem_cons_self, hc⟩
    · obtain ⟨c, hmem, hc⟩ := ih hk
      exact ⟨c, List.mem_cons_of_mem _ hmem, hc⟩

/-- No character is a concatenation. -/
theorem concat_not_mem_of_charIs {cs : List Char} {ks : List TokenKind}
    (h : List.Forall₂ CharIs cs ks) : TokenKind.operator .concat ∉ ks := by
  intro hk
  obtain ⟨c, -, hc⟩ := exists_charIs_of_mem h hk
  cases hc

/-! ## 2. Phrases -/

/-- The kinds of phrases. -/
inductive Phrase where
  | expression
  | term
  | factor
  | atom
  deriving DecidableEq

/-- **Whether tokens are written for an expression**, as a phrase of some kind. -/
inductive Written : Phrase → List TokenKind → Regex → Prop where
  | leaf (s : Leaf) : Written .atom [.leaf s] (.leaf s)
  | group {ks : List TokenKind} {e : Regex} (h : Written .expression ks e) :
      Written .atom (.openParen :: (ks ++ [.closeParen])) e
  | ofAtom {ks : List TokenKind} {e : Regex} (h : Written .atom ks e) : Written .factor ks e
  | star {ks : List TokenKind} {e : Regex} (h : Written .factor ks e) :
      Written .factor (ks ++ [.operator .star]) (.star e)
  | ofFactor {ks : List TokenKind} {e : Regex} (h : Written .factor ks e) : Written .term ks e
  | concat {ks ks' : List TokenKind} {l r : Regex} (hl : Written .term ks l)
      (hr : Written .factor ks' r) : Written .term (ks ++ ks') (.concat l r)
  | ofTerm {ks : List TokenKind} {e : Regex} (h : Written .term ks e) : Written .expression ks e
  | union {ks ks' : List TokenKind} {l r : Regex} (hl : Written .expression ks l)
      (hr : Written .term ks' r) :
      Written .expression (ks ++ .operator .union :: ks') (.union l r)

/-- The leaves of an expression are among the tokens that are written for it. -/
theorem Written.leaf_mem {phrase : Phrase} {ks : List TokenKind} {e : Regex}
    (h : Written phrase ks e) {s : Leaf} (hs : s ∈ e.leaves) : TokenKind.leaf s ∈ ks := by
  induction h with
  | leaf s' =>
    obtain rfl := List.mem_singleton.mp hs
    exact List.mem_cons_self
  | group _ ih => exact List.mem_cons_of_mem _ (List.mem_append_left _ (ih hs))
  | ofAtom _ ih => exact ih hs
  | star _ ih => exact List.mem_append_left _ (ih hs)
  | ofFactor _ ih => exact ih hs
  | concat _ _ ihl ihr =>
    rcases List.mem_append.mp hs with hs | hs
    · exact List.mem_append_left _ (ihl hs)
    · exact List.mem_append_right _ (ihr hs)
  | ofTerm _ ih => exact ih hs
  | union _ _ ihl ihr =>
    rcases List.mem_append.mp hs with hs | hs
    · exact List.mem_append_left _ (ihl hs)
    · exact List.mem_append_right _ (List.mem_cons_of_mem _ (ihr hs))

/-! ## 3. Texts -/

/-- Whether a text is written for an expression. -/
def TextExpresses (cs : List Char) (e : Regex) : Prop :=
  ∃ ks, List.Forall₂ CharIs cs ks ∧ Written .expression ks e

/-- The end marker cannot be written. -/
theorem TextExpresses.endMarker_not_mem {cs : List Char} {e : Regex} (h : TextExpresses cs e) :
    Leaf.endMarker ∉ e.leaves := by
  intro hmem
  obtain ⟨ks, hkinds, hwritten⟩ := h
  obtain ⟨c, -, hc⟩ := exists_charIs_of_mem hkinds (hwritten.leaf_mem hmem)
  cases hc

/-- **The language of a text.** -/
def TextDenotes (cs w : List Char) : Prop := ∃ e, TextExpresses cs e ∧ e.Matches w

end FormalLang
