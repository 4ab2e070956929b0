import FormalLang.Grammar.First

/-!
# Detecting left recursion

A variable leads another one if it stands in a body of the other behind nothing but variables that
can derive the empty string.  A grammar is left recursive if some variable is led, through any
number of others, by itself.
-/

namespace FormalLang

/-- Adds what the members of a set lead to, round after round, until nothing is added. -/
def spread {α : Type} [Ordered α] [DecidableEq α] (next : α → OrderedSet α) :
    Nat → OrderedSet α → OrderedSet α
  | 0, s => s
  | n + 1, s =>
    let grown := s ∪ OrderedSet.unionOf next s.toList
    if grown = s then s else spread next n grown

namespace Grammar

/-- Whether a variable can derive the empty string. -/
def nullableIn (first : FirstSets) (name : String) : Bool :=
  (first.get? name).any fun s => decide (.epsilon ∈ s)

/-- The variables that a body can begin with. -/
def leadingOf (first : FirstSets) : List Symbol → List String
  | [] => []
  | .epsilon :: rest => leadingOf first rest
  | .terminal _ :: _ => []
  | .variable name :: rest =>
    if nullableIn first name then name :: leadingOf first rest else [name]

/-- The variables that the bodies of a variable can begin with. -/
def leading (g : Grammar) (first : FirstSets) (name : String) : OrderedSet String :=
  OrderedSet.ofList ((g.bodiesOf name).flatMap (leadingOf first))

/-- The variables that can stand at the beginning of what a variable derives in one or more
steps. -/
def leaders (g : Grammar) (first : FirstSets) (name : String) : OrderedSet String :=
  spread (g.leading first) g.variableNames.length (g.leading first name)

/-- **Whether some variable derives a form that begins with itself.** -/
def hasLeftRecursion (g : Grammar) : Except Fault Bool :=
  match FirstSets.ofGrammar g with
  | .error f => .error f
  | .ok first => .ok (g.variableNames.any fun name => decide (name ∈ g.leaders first name))

end Grammar

end FormalLang
