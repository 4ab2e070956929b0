import FormalLang.Proofs.Grammar.Yield

/-!
# Leftmost derivations and their choices

A leftmost derivation is known from its choices: which body is put in the place of the first
variable, step after step (`Grammar.DerivesLeftmost`).  For words of terminals the same choices can
be made while the form is read from the left (`Grammar.YieldsBy`), which is what a parser does with
its stack.

Both ways to derive a word make the same choices (`derivesLeftmost_iff_yieldsBy`).
-/

namespace FormalLang.Grammar

/-- **A leftmost derivation with its choices**: the variable that is replaced in each step and the
body that takes its place. -/
inductive DerivesLeftmost (g : Grammar) : List (String × Body) → List Goal → List Goal → Prop where
  | refl (form : List Goal) : DerivesLeftmost g [] form form
  | step {name : String} {body : Body} {choices : List (String × Body)} {last : List Goal}
      (before : List Terminal) (after : List Goal) (rule : body ∈ g.bodiesOf name)
      (rest : DerivesLeftmost g choices (before.map .terminal ++ body.goals ++ after) last) :
      DerivesLeftmost g ((name, body) :: choices)
        (before.map .terminal ++ .variable name :: after) last

/-- Whether a form yields a word with some choices for the variables that come up. -/
inductive YieldsBy (g : Grammar) : List (String × Body) → List Goal → List Terminal → Prop where
  | nil : YieldsBy g [] [] []
  | take {t : Terminal} {choices : List (String × Body)} {form : List Goal} {word : List Terminal}
      (rest : YieldsBy g choices form word) :
      YieldsBy g choices (.terminal t :: form) (t :: word)
  | expand {name : String} {body : Body} {choices : List (String × Body)} {form : List Goal}
      {word : List Terminal} (rule : body ∈ g.bodiesOf name)
      (rest : YieldsBy g choices (body.goals ++ form) word) :
      YieldsBy g ((name, body) :: choices) (.variable name :: form) word

variable {g : Grammar} {choices : List (String × Body)} {form last : List Goal}
  {word : List Terminal}

/-! ## 1. Without the choices -/

theorem DerivesLeftmost.derives (h : g.DerivesLeftmost choices form last) :
    g.Derives form last := by
  induction h with
  | refl form => exact .refl form
  | step before after rule _ ih => exact .step (.replace _ after rule) ih

theorem exists_yieldsBy_iff : (∃ choices, g.YieldsBy choices form word) ↔ g.Yields form word := by
  constructor
  · rintro ⟨choices, h⟩
    induction h with
    | nil => exact .nil
    | take _ ih => exact .take ih
    | expand rule _ ih => exact .expand rule ih
  · intro h
    induction h with
    | nil => exact ⟨[], .nil⟩
    | take _ ih =>
      obtain ⟨choices, h⟩ := ih
      exact ⟨choices, .take h⟩
    | expand rule _ ih =>
      obtain ⟨choices, h⟩ := ih
      exact ⟨_, .expand rule h⟩

theorem YieldsBy.yields (h : g.YieldsBy choices form word) : g.Yields form word :=
  exists_yieldsBy_iff.mp ⟨choices, h⟩

/-! ## 2. Parts of a form -/

/-- A terminal in front stays where it is. -/
theorem DerivesLeftmost.cons (t : Terminal) (h : g.DerivesLeftmost choices form last) :
    g.DerivesLeftmost choices (.terminal t :: form) (.terminal t :: last) := by
  induction h with
  | refl form => exact .refl _
  | step before after rule _ ih => exact .step (t :: before) after rule ih

theorem yieldsBy_nil_iff : g.YieldsBy choices [] word ↔ choices = [] ∧ word = [] := by
  constructor
  · rintro ⟨⟩
    exact ⟨rfl, rfl⟩
  · rintro ⟨rfl, rfl⟩
    exact .nil

theorem yieldsBy_map_append_iff : ∀ {before : List Terminal} {word : List Terminal},
    g.YieldsBy choices (before.map .terminal ++ form) word ↔
      ∃ later, word = before ++ later ∧ g.YieldsBy choices form later
  | [], word => by simp
  | t :: before, word => by
    constructor
    · rintro (_ | h | _)
      obtain ⟨later, rfl, hlater⟩ := yieldsBy_map_append_iff.mp h
      exact ⟨later, rfl, hlater⟩
    · rintro ⟨later, rfl, h⟩
      exact .take (yieldsBy_map_append_iff.mpr ⟨later, rfl, h⟩)

theorem YieldsBy.append {choices' : List (String × Body)} {back : List Goal} {v : List Terminal}
    (h : g.YieldsBy choices form word) (h' : g.YieldsBy choices' back v) :
    g.YieldsBy (choices ++ choices') (form ++ back) (word ++ v) := by
  induction h with
  | nil => exact h'
  | take _ ih => exact .take ih
  | expand rule _ ih =>
    rw [List.append_assoc] at ih
    exact .expand rule ih

/-! ## 3. The same choices -/

/-- **A word is derived from the left by the choices by which it is yielded.** -/
theorem derivesLeftmost_iff_yieldsBy :
    g.DerivesLeftmost choices form (word.map .terminal) ↔ g.YieldsBy choices form word := by
  constructor
  · intro h
    generalize hlast : word.map Goal.terminal = last at h
    induction h with
    | refl form =>
      rw [← hlast, ← List.append_nil (word.map _), yieldsBy_map_append_iff]
      exact ⟨[], (List.append_nil word).symm, .nil⟩
    | step before after rule _ ih =>
      have hnext := ih hlast
      rw [List.append_assoc, yieldsBy_map_append_iff] at hnext
      obtain ⟨later, rfl, hlater⟩ := hnext
      exact yieldsBy_map_append_iff.mpr ⟨later, rfl, .expand rule hlater⟩
  · intro h
    induction h with
    | nil => exact .refl []
    | take _ ih => exact ih.cons _
    | expand rule _ ih => exact .step [] _ rule ih

end FormalLang.Grammar
