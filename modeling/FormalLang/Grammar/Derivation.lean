import FormalLang.Grammar.Basic

/-!
# Derivations

A sentential form is a list of goals.  A step replaces one variable in it by the goals of one of its
bodies, so that the empty body erases it; `Derives` is any number of steps, and the language of a
variable is the set of terminal strings that it derives.
-/

namespace FormalLang.Grammar

/-- One replacement of a variable by one of its bodies. -/
inductive Expands (g : Grammar) : List Goal → List Goal → Prop where
  | replace {name : String} {body : Body} (before after : List Goal)
      (rule : body ∈ g.bodiesOf name) :
      Expands g (before ++ .variable name :: after) (before ++ body.goals ++ after)

/-- Any number of replacements. -/
inductive Derives (g : Grammar) : List Goal → List Goal → Prop where
  | refl (form : List Goal) : Derives g form form
  | step {form next last : List Goal} (first : Expands g form next) (rest : Derives g next last) :
      Derives g form last

/-- Whether a variable derives a string of terminals. -/
def Generates (g : Grammar) (name : String) (word : List Terminal) : Prop :=
  Derives g [.variable name] (word.map .terminal)

/-- Whether a grammar is in order: its variables are declared once, its start is one of them, bodies
mention only declared variables, and every body is in normal form. -/
structure WellFormed (g : Grammar) : Prop where
  nodup : g.variableNames.Nodup
  start_mem : g.start ∈ g.variableNames
  closed : ∀ p ∈ g.productions, ∀ body ∈ p.bodies, ∀ name, .variable name ∈ body →
    name ∈ g.variableNames
  normal : ∀ p ∈ g.productions, ∀ body ∈ p.bodies,
    body ≠ [] ∧ (.epsilon ∈ body → body = [.epsilon])

end FormalLang.Grammar
