import FormalLang.Proofs.Grammar.Detection

/-!
# Without left recursion nothing is introduced

The removal of left recursion replaces leading variables even in a grammar that has none to remove.
It does nothing else there: no variable is declared, no body is dropped, and nothing is reported
(`removeLeftRecursion_introduces_nothing`).

**Why no replacement makes a variable recursive.**  A replacement of an empty body uncovers what
stood behind it, so that a body may come to begin with what it did not begin with before.  But each
body that is made is derived from its variable in the grammar as it was (`Removal.Unfolds`).  If one
began with its own variable, that variable would have been left recursive from the start.
-/

namespace FormalLang.Grammar

variable {g g' : Grammar}

/-! ## 1. Replacements -/

/-- Whether a grammar comes from another one by replacing the leading occurrences of one variable in
the bodies of another. -/
def SubstitutesTo (g g' : Grammar) : Prop :=
  ∃ earlier head, g' = g.substituteLeading earlier head

theorem SubstitutesTo.variableNames_eq (h : g.SubstitutesTo g') :
    g'.variableNames = g.variableNames := by
  obtain ⟨earlier, head, rfl⟩ := h
  rw [substituteLeading, variableNames_setBodies]

theorem SubstitutesTo.start_eq (h : g.SubstitutesTo g') : g'.start = g.start := by
  obtain ⟨earlier, head, rfl⟩ := h
  rfl

/-- Replacements keep the variables and the start. -/
theorem names_eq_of_substitutesTo (h : Relation.ReflTransGen SubstitutesTo g g') :
    g'.variableNames = g.variableNames ∧ g'.start = g.start := by
  induction h with
  | refl => exact ⟨rfl, rfl⟩
  | tail _ step ih => exact ⟨step.variableNames_eq.trans ih.1, step.start_eq.trans ih.2⟩

namespace Removal

/-- **What holds of a removal that has only made replacements**: it says so, and each body can be
derived from its variable in the grammar as it was. -/
structure Unfolds (g : Grammar) (r : Removal) : Prop where
  only : r.OnlySubstitutes
  substituted : Relation.ReflTransGen SubstitutesTo g r.grammar
  derived : ∀ name, ∀ body ∈ r.grammar.bodiesOf name,
    Relation.TransGen g.Expands [.variable name] body.goals

variable {r : Removal}

theorem unfolds_begin (g : Grammar) : Unfolds g ⟨g, []⟩ where
  only := nofun
  substituted := .refl
  derived _ _ rule := transGen_expands_of_rule rule

/-- A replacement is the only thing that is recorded about it. -/
theorem OnlySubstitutes.substitute (h : r.OnlySubstitutes) (earlier head : String) :
    (r.substitute head earlier).OnlySubstitutes := by
  simp only [Removal.substitute]
  split
  · intro e he
    rcases List.mem_append.mp he with he | he
    · exact h e he
    · exact ⟨earlier, head, List.mem_singleton.mp he⟩
  · exact h

theorem reflTransGen_substitute (r : Removal) (earlier head : String) :
    Relation.ReflTransGen SubstitutesTo r.grammar (r.substitute head earlier).grammar := by
  rcases r.substitute_cases earlier head with ⟨-, heq⟩ | ⟨-, heq⟩
  · rw [heq]
  · exact .single ⟨earlier, head, heq⟩

/-- **A replacement is a piece of a derivation**: the leading variable is replaced by one of its
bodies, which was derived from it. -/
theorem Unfolds.substitute (h : Unfolds g r) (earlier head : String) :
    Unfolds g (r.substitute head earlier) where
  only := h.only.substitute earlier head
  substituted := h.substituted.trans (r.reflTransGen_substitute earlier head)
  derived name body hbody := by
    rcases mem_bodiesOf_substitute hbody with
      ⟨hbody, -⟩ | ⟨rfl, tail, hold, replacement, hreplacement, rfl⟩
    · exact h.derived name body hbody
    · have hfront := h.derived name _ hold
      have hback := transGen_expands_frame [] (Body.goals tail) (h.derived earlier _ hreplacement)
      rw [Body.goals_bodyAppend]
      exact hfront.trans hback

/-- Where no body begins with its own variable, there is nothing to be done. -/
theorem removeDirect_eq_self {suffix head : String}
    (h : ∀ body ∈ r.grammar.bodiesOf head, ∀ tail, body ≠ .variable head :: tail) :
    r.removeDirect suffix head = r := by
  rw [removeDirect]
  refine if_pos ?_
  rw [List.isEmpty_iff, List.filter_eq_nil_iff]
  intro body hbody hbegins
  obtain ⟨tail, heq⟩ := Body.beginsWith_iff.mp hbegins
  exact h body hbody tail heq

/-- **Without left recursion no body comes to begin with its own variable.** -/
theorem Unfolds.removeDirect_eq (h : Unfolds g r) (hnone : ∀ name, ¬ g.LeftRecursive name)
    (suffix head : String) : r.removeDirect suffix head = r := by
  refine removeDirect_eq_self fun body hbody tail heq => hnone head ?_
  subst heq
  exact leftRecursive_iff_exists.mpr ⟨_, h.derived head _ hbody⟩

end Removal

/-! ## 2. The whole removal -/

theorem unfolds_removeLeftRecursion (wellFormed : g.WellFormed)
    (hnone : ∀ name, ¬ g.LeftRecursive name) (suffix : String) :
    Removal.Unfolds g (g.removeLeftRecursion suffix) := by
  refine Removal.visitAll_induction (P := fun r => Removal.Unfolds g r) ?_ ?_ g.variableNames []
    ⟨g, []⟩ wellFormed.nodup (Removal.unfolds_begin g)
  · intro r earlier head _ h
    exact h.substitute earlier head
  · intro r head h
    rw [h.removeDirect_eq hnone]
    exact h

/-- Replacements are not reported. -/
theorem Removal.OnlySubstitutes.reportLines_eq_nil {r : Removal} (h : r.OnlySubstitutes) :
    r.events.flatMap RecursionEvent.reportLines = [] := by
  rw [List.flatMap_eq_nil_iff]
  intro e he
  obtain ⟨earlier, head, rfl⟩ := h e he
  rfl

/-- **Without left recursion nothing is introduced**, whichever way the grammar was obtained and
whatever the suffix: the removal reports no step and keeps the variables, their order and the start.
All that it does is to replace leading variables by their bodies. -/
theorem removeLeftRecursion_introduces_nothing (obtained : g.Obtained)
    (h : g.hasLeftRecursion = .ok false) (suffix : String) :
    (g.removeLeftRecursion suffix).events.flatMap RecursionEvent.reportLines = [] ∧
      (g.removeLeftRecursion suffix).OnlySubstitutes ∧
      (g.removeLeftRecursion suffix).grammar.variableNames = g.variableNames ∧
      (g.removeLeftRecursion suffix).grammar.start = g.start ∧
      Relation.ReflTransGen SubstitutesTo g (g.removeLeftRecursion suffix).grammar := by
  obtain ⟨found, hfound, hexact⟩ := obtained.wellFormed.exists_hasLeftRecursion
  obtain rfl := Except.ok.inj (hfound.symm.trans h)
  have hnone : ∀ name, ¬ g.LeftRecursive name := fun name hname =>
    Bool.false_ne_true (hexact.mpr ⟨name, hname⟩)
  have unfolds := unfolds_removeLeftRecursion obtained.wellFormed hnone suffix
  obtain ⟨hnames, hstart⟩ := names_eq_of_substitutesTo unfolds.substituted
  exact ⟨unfolds.only.reportLines_eq_nil, unfolds.only, hnames, hstart, unfolds.substituted⟩

/-- `B` begins with `A`, which may vanish and uncovers `C`. -/
def uncovering : Grammar :=
  ⟨"A", [⟨"A", [[.epsilon], [.terminal (.named "a")]]⟩,
    ⟨"B", [[.variable "A", .variable "C", .terminal (.named "b")]]⟩,
    ⟨"C", [[.terminal (.named "c")], [.variable "A", .terminal (.named "d")]]⟩]⟩

theorem uncovering_obtained : uncovering.Obtained :=
  @Obtained.read .default "A -> ε | a\nB -> A C b\nC -> c | A d".toList _ (by decide)

/-- A body of `B` comes to begin with `C`, which it did not before, and yet there is no recursion to
be removed. -/
theorem removeLeftRecursion_introduces_nothing_uncovering :
    uncovering.Obtained ∧ uncovering.hasLeftRecursion = .ok false ∧
      (uncovering.removeLeftRecursion "'").grammar.bodiesOf "B" =
        [[.variable "C", .terminal (.named "b")],
          [.terminal (.named "a"), .variable "C", .terminal (.named "b")]] ∧
      (uncovering.removeLeftRecursion "'").events.flatMap RecursionEvent.reportLines = [] ∧
      (uncovering.removeLeftRecursion "'").grammar.variableNames = ["A", "B", "C"] ∧
      (uncovering.removeLeftRecursion "'").grammar.start = "A" := by
  have hnone : uncovering.hasLeftRecursion = .ok false := by decide
  obtain ⟨hlines, -, hnames, hstart, -⟩ :=
    removeLeftRecursion_introduces_nothing uncovering_obtained hnone "'"
  exact ⟨uncovering_obtained, hnone, by decide, hlines, hnames, hstart⟩

end FormalLang.Grammar
