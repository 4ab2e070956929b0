import FormalLang.Automaton.Step

/-!
# Thompson's construction

Every expression becomes a fragment: an automaton part with one entry and one exit whose states have
consecutive numbers.  An operator never changes a fragment; it puts edges, and for a star or a union
two new states, around the fragments of its operands.

* a leaf has two states and the edge between them;
* a concatenation adds an edge from the exit of its left to the entry of its right operand;
* a union adds an entry, an exit and four edges;
* a star adds an entry, an exit and four edges, two of which skip and repeat its operand.

Numbers are given out in post-order, so that the operands are numbered before their operator.
-/

namespace FormalLang

/-- **A part of an automaton.**  Its states are the numbers below `next` that were not used before
it, and its edges and steps are listed in the order in which they were made. -/
structure Fragment where
  start : Nat
  accept : Nat
  /-- The first number that is still free. -/
  next : Nat
  edges : List Edge
  steps : List Step
  deriving DecidableEq

/-- The label of a leaf's edge. -/
def Leaf.label : Leaf → Label
  | .char c => .char c
  | .epsilon => .epsilon
  | .endMarker => .char endMarkerChar

namespace Fragment

/-- The fragment of a leaf. -/
def ofLeaf (s : Leaf) (free : Nat) : Fragment where
  start := free
  accept := free + 1
  next := free + 2
  edges := [⟨free, s.label, free + 1⟩]
  steps := [.symbol s.label free (free + 1)]

/-- The second fragment after the first. -/
def concat (l r : Fragment) : Fragment where
  start := l.start
  accept := r.accept
  next := r.next
  edges := l.edges ++ r.edges ++ [⟨l.accept, .epsilon, r.start⟩]
  steps := l.steps ++ r.steps ++ [.concat l.accept r.start]

/-- Either fragment. -/
def union (l r : Fragment) : Fragment where
  start := r.next
  accept := r.next + 1
  next := r.next + 2
  edges := l.edges ++ r.edges ++
    [⟨r.next, .epsilon, l.start⟩, ⟨r.next, .epsilon, r.start⟩,
      ⟨l.accept, .epsilon, r.next + 1⟩, ⟨r.accept, .epsilon, r.next + 1⟩]
  steps := l.steps ++ r.steps ++ [.union r.next (r.next + 1)]

/-- A fragment any number of times. -/
def star (f : Fragment) : Fragment where
  start := f.next
  accept := f.next + 1
  next := f.next + 2
  edges := f.edges ++
    [⟨f.next, .epsilon, f.start⟩, ⟨f.next, .epsilon, f.next + 1⟩,
      ⟨f.accept, .epsilon, f.start⟩, ⟨f.accept, .epsilon, f.next + 1⟩]
  steps := f.steps ++ [.star f.next (f.next + 1)]

/-- The automaton that a fragment is all of. -/
def toNfa (f : Fragment) : Nfa := Nfa.ofEdges f.next f.start f.accept f.edges

end Fragment

/-- The fragment of an expression whose states are numbered from `free` on. -/
def Regex.fragment : Regex → Nat → Fragment
  | .leaf s, free => .ofLeaf s free
  | .concat l r, free =>
    let left := l.fragment free
    left.concat (r.fragment left.next)
  | .union l r, free =>
    let left := l.fragment free
    left.union (r.fragment left.next)
  | .star e, free => (e.fragment free).star

/-- **Thompson's automaton** of an expression. -/
def Regex.toNfa (e : Regex) : Nfa := (e.fragment 0).toNfa

end FormalLang
