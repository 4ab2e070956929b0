import FormalLang.Grammar.Options
import FormalLang.Proofs.Grammar.LeftRecursion

/-!
# Introduced variables are no terminals

The removal of left recursion names a new variable so that no terminal of the grammar is spelled
like it.  At the end, no body mentions a terminal that is spelled like an introduced variable
(`not_mentions_introduced`), so that no word of the grammar contains one (`Yields.mentions`).

**The invariant** is about the grammar as it is at the time (`Apart`).  It stays true because later
changes copy symbols between bodies or drop bodies, and no symbol but the new variable occurs anew
(`Occurs.of_substitute`, `Occurs.of_removeDirect`).  About the grammar at the beginning it would
be false: a body with such a terminal can be dropped before the name is looked for, when it begins
with a variable that has lost all its bodies.
-/

namespace FormalLang

/-! ## 1. Options -/

namespace GrammarOptions

/-- The options that setting one after the other leads to. -/
inductive Reachable : GrammarOptions → Prop where
  | default : Reachable .default
  | addMarker {o : GrammarOptions} (marker : String) (h : Reachable o) :
      Reachable (o.addMarker marker)
  | setSuffix {o : GrammarOptions} (suffix : String) (h : Reachable o) :
      Reachable (o.setSuffix suffix)
  | setStart {o : GrammarOptions} (name : String) (h : Reachable o) : Reachable (o.setStart name)

/-- **There is always a suffix to name new variables with.** -/
theorem Reachable.suffix_ne_empty {o : GrammarOptions} (h : o.Reachable) : o.suffix ≠ "" := by
  induction h with
  | default => decide
  | addMarker marker _ ih =>
    rw [GrammarOptions.addMarker]
    split
    · exact ih
    · exact ih
  | setSuffix suffix _ ih =>
    rw [GrammarOptions.setSuffix]
    split
    · exact ih
    · assumption
  | setStart name _ ih => exact ih

/-- **The text `ε` always marks the empty body.** -/
theorem Reachable.isEpsilon_epsilonText {o : GrammarOptions} (h : o.Reachable) :
    o.isEpsilon epsilonText = true := by
  induction h with
  | default => decide
  | addMarker marker _ ih =>
    rw [GrammarOptions.addMarker]
    split
    · exact ih
    · rw [isEpsilon, decide_eq_true_eq] at ih ⊢
      exact List.mem_append_left _ ih
  | setSuffix suffix _ ih =>
    rw [GrammarOptions.setSuffix]
    split
    · exact ih
    · exact ih
  | setStart name _ ih => exact ih

end GrammarOptions

/-! ## 2. The symbols of a grammar -/

namespace Grammar

/-- Whether a symbol stands in a body. -/
def Occurs (g : Grammar) (s : Symbol) : Prop := ∃ head, ∃ body ∈ g.bodiesOf head, s ∈ body

/-- Whether a terminal stands in a body. -/
def Mentions (g : Grammar) (t : Terminal) : Prop :=
  ∃ head, ∃ body ∈ g.bodiesOf head, .terminal t ∈ body

variable {g : Grammar} {t : Terminal} {s : Symbol}

/-- **The terminals of a word come from the form or from bodies.** -/
theorem Yields.mentions {form : List Goal} {word : List Terminal} (h : g.Yields form word) :
    t ∈ word → .terminal t ∈ form ∨ g.Mentions t := by
  induction h with
  | nil => nofun
  | take _ ih =>
    intro ht
    rcases List.mem_cons.mp ht with rfl | ht
    · exact .inl List.mem_cons_self
    · exact (ih ht).imp_left (List.mem_cons_of_mem _)
  | expand rule _ ih =>
    intro ht
    rcases ih ht with hform | hmentions
    · rcases List.mem_append.mp hform with hbody | hform
      · exact .inr ⟨_, _, rule, Body.terminal_mem_goals.mp hbody⟩
      · exact .inl (List.mem_cons_of_mem _ hform)
    · exact .inr hmentions

theorem not_mentions_freshVariable (nodup : g.variableNames.Nodup) {suffix : String}
    (hsuffix : suffix ≠ "") (name : String) :
    ¬ g.Mentions (.named (g.freshVariable name suffix)) := by
  rintro ⟨head, body, hbody, ht⟩
  have hterminal := mem_terminals_of_mem_bodiesOf nodup hbody ht
  exact freshVariable_not_mem hsuffix g name
    (List.mem_append_right _ (List.mem_filterMap.mpr ⟨_, hterminal, rfl⟩))

/-! ## 3. What occurs anew -/

theorem Occurs.of_substitute {r : Removal} (hs : s ≠ .epsilon) {earlier head : String}
    (h : (r.substitute head earlier).grammar.Occurs s) : r.grammar.Occurs s := by
  obtain ⟨name, body, hbody, hmem⟩ := h
  rcases Removal.mem_bodiesOf_substitute hbody with
    ⟨hbody, -⟩ | ⟨-, tail, hold, replacement, hreplacement, rfl⟩
  · exact ⟨name, body, hbody, hmem⟩
  · rcases (Body.mem_append_iff hs).mp hmem with hmem | hmem
    · exact ⟨_, _, hreplacement, hmem⟩
    · exact ⟨_, _, hold, List.mem_cons_of_mem _ hmem⟩

theorem Occurs.of_removeDirect {r : Removal} (hs : s ≠ .epsilon) {suffix head : String}
    (hsuffix : suffix ≠ "") (h : (r.removeDirect suffix head).grammar.Occurs s) :
    r.grammar.Occurs s ∨ s = .variable (r.grammar.freshVariable head suffix) := by
  obtain ⟨name, body, hbody, hmem⟩ := h
  rcases Removal.mem_bodiesOf_removeDirect hsuffix hbody with
    ⟨hbody, -⟩ | ⟨-, ⟨-, old, hold, rfl⟩ | ⟨-, rfl | ⟨tail, htail, rfl⟩⟩⟩
  · exact .inl ⟨name, body, hbody, hmem⟩
  · exact ((Body.mem_append_iff hs).mp hmem).imp
      (fun hmem => ⟨_, _, (mem_foundedBodies.mp hold).1, hmem⟩) List.mem_singleton.mp
  · exact absurd (List.mem_singleton.mp hmem) hs
  · exact ((Body.mem_append_iff hs).mp hmem).imp
      (fun hmem => ⟨_, _, (mem_recursiveTails.mp htail).2, List.mem_cons_of_mem _ hmem⟩)
      List.mem_singleton.mp

/-! ## 4. Introduced variables -/

namespace Removal

/-- Whether no terminal in the bodies is spelled like a variable that the original grammar does not
have. -/
def Apart (g : Grammar) (r : Removal) : Prop :=
  ∀ name ∈ r.grammar.variableNames, name ∉ g.variableNames → ¬ r.grammar.Mentions (.named name)

theorem Apart.substitute {r : Removal} (apart : r.Apart g) (earlier head : String) :
    (r.substitute head earlier).Apart g := by
  intro name hname hnew hmentions
  rw [variableNames_substitute] at hname
  exact apart name hname hnew (Occurs.of_substitute nofun hmentions)

theorem Apart.removeDirect {r : Removal} (apart : r.Apart g)
    (nodup : r.grammar.variableNames.Nodup) {suffix : String} (hsuffix : suffix ≠ "")
    (head : String) : (r.removeDirect suffix head).Apart g := by
  intro name hname hnew hmentions
  have hbefore : r.grammar.Mentions (.named name) :=
    (Occurs.of_removeDirect (s := .terminal _) nofun hsuffix hmentions).resolve_right nofun
  rcases mem_variableNames_removeDirect hname with hname | rfl
  · exact apart name hname hnew hbefore
  · exact not_mentions_freshVariable nodup hsuffix head hbefore

end Removal

/-- **No body mentions a terminal that is spelled like an introduced variable.** -/
theorem WellFormed.not_mentions_introduced (wellFormed : g.WellFormed) {suffix : String}
    (hsuffix : suffix ≠ "") {name : String}
    (hname : name ∈ (g.removeLeftRecursion suffix).grammar.variableNames)
    (hnew : name ∉ g.variableNames) :
    ¬ (g.removeLeftRecursion suffix).grammar.Mentions (.named name) := by
  have hboth : (g.removeLeftRecursion suffix).grammar.WellFormed ∧
      (g.removeLeftRecursion suffix).Apart g := by
    refine Removal.visitAll_induction (P := fun r => r.grammar.WellFormed ∧ r.Apart g)
      ?_ ?_ g.variableNames [] ⟨g, []⟩ wellFormed.nodup
      ⟨wellFormed, fun _ hname hnew => absurd hname hnew⟩
    · intro r earlier head _ h
      exact ⟨h.1.substitute earlier head, h.2.substitute earlier head⟩
    · intro r head h
      exact ⟨h.1.removeDirect hsuffix head, h.2.removeDirect h.1.nodup hsuffix head⟩
  exact hboth.2 name hname hnew

end Grammar

end FormalLang
