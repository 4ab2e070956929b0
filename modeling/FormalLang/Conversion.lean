import FormalLang.Automaton.Subset
import FormalLang.Automaton.Thompson
import FormalLang.Position.Followpos
import FormalLang.Regex.Postfix

/-!
# From text to automata

The two ways from the text of an expression to a deterministic automaton, each with all that it
builds on the way and the steps that it takes.
-/

namespace FormalLang

/-- What Thompson's construction and the subset construction make of an expression. -/
structure ThompsonConversion where
  listing : Postfix
  nfa : Nfa
  dfa : Dfa
  steps : List Step
  deriving DecidableEq

/-- What the followpos construction makes of an expression with the end marker behind it. -/
structure SyntaxTreeConversion where
  listing : Postfix
  tree : SyntaxTree
  dfa : Dfa
  steps : List Step
  deriving DecidableEq

/-- Thompson's construction, then the subset construction, on a listing. -/
def ThompsonConversion.ofPostfix (listing : Postfix) : ThompsonConversion :=
  let fragment := listing.expression.fragment 0
  let nfa := fragment.toNfa
  let start := nfa.startMembers
  let exploration := nfa.exploration
  { listing
    nfa
    dfa := exploration.toDfa fun members => decide (nfa.accept ∈ members)
    steps := .listing listing.text false :: fragment.steps ++ exploration.steps start }

/-- The followpos construction on a listing that carries the end marker. -/
def SyntaxTreeConversion.ofPostfix (listing : Postfix) : SyntaxTreeConversion :=
  let tree := SyntaxTree.ofRegex listing.expression
  let exploration := tree.exploration
  let dfa := exploration.toDfa fun members => decide (tree.endPosition ∈ members)
  { listing
    tree
    dfa
    steps := .listing listing.text true :: tree.steps ++
      exploration.steps tree.shape.firstpos ++ [.acceptStates dfa.accept.toList] }

/-- **Thompson's construction and the subset construction** on the text of an expression. -/
def thompson (cs : List Char) : Except RegexError ThompsonConversion :=
  match Postfix.ofText cs with
  | .error e => .error e
  | .ok listing => .ok (.ofPostfix listing)

/-- **The followpos construction** on the text of an expression. -/
def syntaxTree (cs : List Char) : Except RegexError SyntaxTreeConversion :=
  match Postfix.augmentedOfText cs with
  | .error e => .error e
  | .ok listing => .ok (.ofPostfix listing)

/-- The two conversions contain the automata that the constructions define. -/
theorem ThompsonConversion.ofPostfix_dfa (listing : Postfix) :
    (ofPostfix listing).nfa = listing.expression.toNfa ∧
      (ofPostfix listing).dfa = listing.expression.toNfa.toDfa := ⟨rfl, rfl⟩

theorem SyntaxTreeConversion.ofPostfix_dfa (listing : Postfix) :
    (ofPostfix listing).dfa = (SyntaxTree.ofRegex listing.expression).toDfa := rfl

end FormalLang
