import FormalLang.Proofs.Grammar.Forms
import FormalLang.Proofs.Grammar.WellFormed

/-!
# Variables that are of use

A variable is of use if it derives a word (`Grammar.Productive`) and if a form that the start
derives mentions it (`Grammar.Accessible`).  Reading a grammar requires neither, so both are stated
here for the results that need them.

Where every variable derives a word, every form of declared variables yields one
(`Productive.exists_yields`), and derived forms only mention declared variables
(`WellFormed.declared_of_derives`): what is left on the way can always be finished.
-/

namespace FormalLang.Grammar

variable {g : Grammar} {form next last : List Goal}

/-- Whether every variable derives a word. -/
def Productive (g : Grammar) : Prop := ∀ name ∈ g.variableNames, ∃ word, g.Generates name word

/-- Whether the start derives, for every variable, a form that mentions it. -/
def Accessible (g : Grammar) : Prop :=
  ∀ name ∈ g.variableNames, ∃ before after,
    g.Derives [.variable g.start] (before ++ .variable name :: after)

/-- Whether a form mentions declared variables only. -/
def Declared (g : Grammar) (form : List Goal) : Prop :=
  ∀ name, .variable name ∈ form → name ∈ g.variableNames

theorem declared_append_iff {front back : List Goal} :
    g.Declared (front ++ back) ↔ g.Declared front ∧ g.Declared back := by
  simp only [Declared, List.mem_append, or_imp, forall_and]

theorem declared_variable_cons_iff {name : String} :
    g.Declared (.variable name :: form) ↔ name ∈ g.variableNames ∧ g.Declared form := by
  simp only [Declared, List.mem_cons, Goal.variable.injEq, or_imp, forall_and, forall_eq]

namespace WellFormed

variable (wellFormed : g.WellFormed)

include wellFormed

theorem declared_goals {name : String} {body : Body} (rule : body ∈ g.bodiesOf name) :
    g.Declared body.goals :=
  fun v hv => (wellFormed.rule rule).2 v (Body.variable_mem_goals.mp hv)

theorem declared_of_expands (h : g.Expands form next) (declared : g.Declared form) :
    g.Declared next := by
  obtain ⟨before, after, rule⟩ := h
  rw [declared_append_iff, declared_variable_cons_iff] at declared
  rw [declared_append_iff, declared_append_iff]
  exact ⟨⟨declared.1, wellFormed.declared_goals rule⟩, declared.2.2⟩

/-- **Derivations mention declared variables only.** -/
theorem declared_of_derives (h : g.Derives form last) (declared : g.Declared form) :
    g.Declared last := by
  induction h with
  | refl form => exact declared
  | step first _ ih => exact ih (wellFormed.declared_of_expands first declared)

end WellFormed

/-- **Every form yields a word** where every variable does. -/
theorem Productive.exists_yields (productive : g.Productive) : ∀ {form : List Goal},
    g.Declared form → ∃ word, g.Yields form word
  | [], _ => ⟨[], .nil⟩
  | .terminal t :: form, declared => by
    obtain ⟨word, hword⟩ :=
      productive.exists_yields fun v hv => declared v (List.mem_cons_of_mem _ hv)
    exact ⟨t :: word, .take hword⟩
  | .variable name :: form, declared => by
    obtain ⟨hname, hform⟩ := declared_variable_cons_iff.mp declared
    obtain ⟨u, hu⟩ := productive name hname
    obtain ⟨v, hv⟩ := productive.exists_yields hform
    exact ⟨u ++ v, (generates_iff_yields.mp hu).append hv⟩

end FormalLang.Grammar
