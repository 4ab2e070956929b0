import FormalLang.Conversion
import FormalLang.Journal.Record

/-!
# The journal of the constructions on expressions

The front end writes a line for every listing that it finds, a construction one for every transition
and one for its result.
-/

namespace FormalLang.Journal

/-- A set of numbers as `{1, 2, 3}`. -/
def setText (s : OrderedSet Nat) : String := Text.braced (Text.spacedList s.toList)

/-- The record of a listing. -/
def ofListing (listing : Postfix) : List Record := [⟨.trace, "postfix: " ++ listing.text⟩]

/-- The records of reading an expression. -/
def ofText (cs : List Char) : List Record :=
  match Postfix.ofText cs with
  | .error _ => []
  | .ok listing => ofListing listing

/-- The records of reading an expression and putting the end marker behind it. -/
def ofAugmentedText (cs : List Char) : List Record :=
  ofText cs ++
    match Postfix.augmentedOfText cs with
    | .error _ => []
    | .ok listing => ofListing listing

/-- The records of the moves among the steps of a construction. -/
def ofMoves (construction : String) (steps : List Step) : List Record :=
  steps.filterMap fun
    | .dfaMove m => some ⟨.trace, construction ++ ": S" ++ toString m.source ++ " --" ++
        String.ofList [m.symbol] ++ "--> S" ++ toString m.target ++ " " ++ setText m.members⟩
    | _ => none

/-- The record of Thompson's construction. -/
def ofNfa (listing : Postfix) (nfa : Nfa) : List Record :=
  [⟨.debug, "thompson: " ++ toString nfa.size ++ " states for `" ++ listing.text ++ "` (start " ++
    toString nfa.start ++ ", accept " ++ toString nfa.accept ++ ")"⟩]

/-- The records of the subset construction. -/
def ofSubset (nfa : Nfa) (dfa : Dfa) (steps : List Step) : List Record :=
  ofMoves "subset" steps ++
    [⟨.debug, "subset construction: " ++ toString nfa.size ++ " nfa states -> " ++
      toString dfa.size ++ " dfa states"⟩]

/-- The record of a syntax tree. -/
def ofTree (listing : Postfix) (tree : SyntaxTree) : List Record :=
  [⟨.debug, "syntax tree: " ++ toString tree.nodes.length ++ " nodes, " ++
    toString tree.symbols.size ++ " positions for `" ++ listing.text ++ "`"⟩]

/-- The records of the followpos construction. -/
def ofFollowpos (dfa : Dfa) (steps : List Step) : List Record :=
  ofMoves "followpos" steps ++
    [⟨.debug, "followpos construction: " ++ toString dfa.size ++ " dfa states"⟩]

/-- The records of Thompson's construction and the subset construction on a text. -/
def ofThompson (cs : List Char) : List Record :=
  ofText cs ++
    match thompson cs with
    | .error _ => []
    | .ok c => ofNfa c.listing c.nfa ++ ofSubset c.nfa c.dfa c.steps

/-- The records of the followpos construction on a text. -/
def ofSyntaxTree (cs : List Char) : List Record :=
  ofAugmentedText cs ++
    match syntaxTree cs with
    | .error _ => []
    | .ok c => ofTree c.listing c.tree ++ ofFollowpos c.dfa c.steps

end FormalLang.Journal
