import FormalLang.Proofs.Automaton.Building
import FormalLang.Proofs.Regex.Machine

/-!
# Thompson's construction with a builder

Here Thompson's construction reads a listing, numbers its states with a counter and hands them and
their edges to a builder.  The builder refuses an edge out of a state that it does not have; in the
end it refuses targets that it does not have, and the count of the numbers is compared with that of
the states.  Nothing is refused: the automaton is the one that is put together from fragments
(`Compiler.compile_eq`).

**The invariant** is the builder itself: it has the states with the numbers that were given out, and
the edges of the fragments that were made, which lie between these states (`Compiler.after`).
-/

namespace FormalLang

/-- The two ends of a part of an automaton. -/
structure Ends where
  start : Nat
  accept : Nat
  deriving DecidableEq

/-- **Thompson's construction in progress.** -/
structure Compiler where
  /-- The number that the next state takes. -/
  free : Nat
  builder : NfaBuilder
  steps : List Step
  deriving DecidableEq

namespace Compiler

/-! ## 1. The construction -/

/-- Adds a state, and tells its number. -/
def addState (c : Compiler) : Nat × Compiler :=
  (c.free, ⟨c.free + 1, ⟨c.builder.states ++ [⟨c.free, ∅⟩]⟩, c.steps⟩)

/-- Adds some edges, one after the other. -/
def addEdges (c : Compiler) (edges : List Edge) : Except Lapse Compiler :=
  match c.builder.addEdges edges with
  | .error r => .error (.refused r)
  | .ok builder => .ok { c with builder }

/-- Records a step. -/
def record (c : Compiler) (step : Step) : Compiler := { c with steps := c.steps ++ [step] }

/-- Two new states and the edge between them. -/
def leaf (symbol : Leaf) (c : Compiler) : Except Lapse (Compiler × Ends) := do
  let (start, c) := c.addState
  let (accept, c) := c.addState
  let c ← c.addEdges [⟨start, symbol.label, accept⟩]
  return (c.record (.symbol symbol.label start accept), ⟨start, accept⟩)

/-- Two new states around a part, which can be skipped and repeated. -/
def star (inner : Ends) (c : Compiler) : Except Lapse (Compiler × Ends) := do
  let (start, c) := c.addState
  let (accept, c) := c.addState
  let c ← c.addEdges [⟨start, .epsilon, inner.start⟩, ⟨start, .epsilon, accept⟩,
    ⟨inner.accept, .epsilon, inner.start⟩, ⟨inner.accept, .epsilon, accept⟩]
  return (c.record (.star start accept), ⟨start, accept⟩)

/-- An edge from the first part to the second. -/
def concat (left right : Ends) (c : Compiler) : Except Lapse (Compiler × Ends) := do
  let c ← c.addEdges [⟨left.accept, .epsilon, right.start⟩]
  return (c.record (.concat left.accept right.start), ⟨left.start, right.accept⟩)

/-- Two new states around two parts. -/
def union (left right : Ends) (c : Compiler) : Except Lapse (Compiler × Ends) := do
  let (start, c) := c.addState
  let (accept, c) := c.addState
  let c ← c.addEdges [⟨start, .epsilon, left.start⟩, ⟨start, .epsilon, right.start⟩,
    ⟨left.accept, .epsilon, accept⟩, ⟨right.accept, .epsilon, accept⟩]
  return (c.record (.union start accept), ⟨start, accept⟩)

/-- What the construction does at a leaf and at each operator. -/
def machine : OperandMachine Compiler Ends := ⟨leaf, star, concat, union⟩

/-- The automaton that has been built. -/
def build (c : Compiler) (ends : Ends) : Except Lapse Nfa :=
  if c.free = c.builder.states.length then
    match c.builder.build ends.start ends.accept with
    | .error r => .error (.refused r)
    | .ok nfa => .ok nfa
  else .error .miscounted

/-- The automaton of a listing, and the steps that build it. -/
def compile (listing : List Token) : Except Lapse (Nfa × List Step) := do
  let text := String.ofList (listing.map Token.toChar)
  let (c, ends) ← machine.read listing ⟨0, .empty, [.listing text false]⟩
  let nfa ← c.build ends
  return (nfa, c.steps)

/-! ## 2. The invariant -/

/-- The construction after so many states and these edges and steps. -/
def after (size : Nat) (edges : List Edge) (steps : List Step) : Compiler :=
  ⟨size, .ofEdges size edges, steps⟩

variable {size : Nat} {edges : List Edge} {steps : List Step}

/-- Whether all edges begin at states that exist. -/
def Rooted (size : Nat) (edges : List Edge) : Prop := ∀ e ∈ edges, e.source < size

theorem Rooted.mono {size' : Nat} (h : Rooted size edges) (hle : size ≤ size') :
    Rooted size' edges := fun e he => Nat.lt_of_lt_of_le (h e he) hle

/-- The edges of a fragment begin at its states. -/
theorem Rooted.of_tight {f : Fragment} (tight : f.Tight size) : Rooted f.next f.edges :=
  fun e he => (tight.edges e he).1.2

theorem Rooted.right {later : List Edge} (h : Rooted size (edges ++ later)) : Rooted size later :=
  fun e he => h e (List.mem_append_right _ he)

theorem addState_after (h : Rooted size edges) :
    (after size edges steps).addState = (size, after (size + 1) edges steps) := by
  have hadded := NfaBuilder.addState_ofEdges h
  rw [NfaBuilder.addState, NfaBuilder.nextId_ofEdges] at hadded
  simp only [after, addState, hadded]

theorem addEdges_after {later : List Edge} (h : Rooted size later) :
    (after size edges steps).addEdges later = .ok (after size (edges ++ later) steps) := by
  rw [addEdges, after, NfaBuilder.addEdges_ofEdges h]
  rfl

/-- The two ends of a fragment. -/
def ends (f : Fragment) : Ends := ⟨f.start, f.accept⟩

/-- The construction after a fragment has been added. -/
def afterFragment (f : Fragment) (edges : List Edge) (steps : List Step) : Compiler × Ends :=
  (after f.next (edges ++ f.edges) (steps ++ f.steps), ends f)

variable {f l r : Fragment}

theorem Rooted.fragment (h : Rooted size edges) (tight : f.Tight size) :
    Rooted f.next (edges ++ f.edges) := by
  intro e he
  rcases List.mem_append.mp he with he | he
  · have := h e he
    have := tight.start
    omega
  · exact Rooted.of_tight tight e he

theorem leaf_after (h : Rooted size edges) (symbol : Leaf) :
    leaf symbol (after size edges steps) =
      .ok (afterFragment (.ofLeaf symbol size) edges steps) := by
  have hadded := @addEdges_after (size + 2) edges steps [⟨size, symbol.label, size + 1⟩]
    (Rooted.of_tight (Fragment.tight_ofLeaf symbol size))
  simp only [leaf, addState_after h, addState_after (h.mono (Nat.le_succ size)), hadded]
  rfl

theorem star_after (h : Rooted size edges) (tight : f.Tight size) :
    star (ends f) (after f.next (edges ++ f.edges) (steps ++ f.steps)) =
      .ok (afterFragment f.star edges steps) := by
  have hroot := h.fragment tight
  have hadded := @addEdges_after (f.next + 2) (edges ++ f.edges) (steps ++ f.steps)
    [⟨f.next, .epsilon, f.start⟩, ⟨f.next, .epsilon, f.next + 1⟩,
      ⟨f.accept, .epsilon, f.start⟩, ⟨f.accept, .epsilon, f.next + 1⟩]
    (Rooted.of_tight tight.star).right
  simp only [star, ends, addState_after hroot, addState_after (hroot.mono (Nat.le_succ _)), hadded,
    afterFragment, Fragment.star, ← List.append_assoc]
  rfl

theorem concat_after (tight : l.Tight size) (tight' : r.Tight l.next) :
    concat (ends l) (ends r)
        (after r.next (edges ++ l.edges ++ r.edges) (steps ++ l.steps ++ r.steps)) =
      .ok (afterFragment (l.concat r) edges steps) := by
  have hadded := @addEdges_after r.next (edges ++ l.edges ++ r.edges)
    (steps ++ l.steps ++ r.steps) [⟨l.accept, .epsilon, r.start⟩]
    (Rooted.of_tight (tight.concat tight')).right
  simp only [concat, ends, hadded, afterFragment, Fragment.concat, ← List.append_assoc]
  rfl

theorem union_after (h : Rooted size edges) (tight : l.Tight size) (tight' : r.Tight l.next) :
    union (ends l) (ends r)
        (after r.next (edges ++ l.edges ++ r.edges) (steps ++ l.steps ++ r.steps)) =
      .ok (afterFragment (l.union r) edges steps) := by
  have hroot := (h.fragment tight).fragment tight'
  have hadded := @addEdges_after (r.next + 2) (edges ++ l.edges ++ r.edges)
    (steps ++ l.steps ++ r.steps) [⟨r.next, .epsilon, l.start⟩, ⟨r.next, .epsilon, r.start⟩,
      ⟨l.accept, .epsilon, r.next + 1⟩, ⟨r.accept, .epsilon, r.next + 1⟩]
    (Rooted.of_tight (tight.union tight')).right
  simp only [union, ends, addState_after hroot, addState_after (hroot.mono (Nat.le_succ _)), hadded,
    afterFragment, Fragment.union, ← List.append_assoc]
  rfl

/-- **No edge is refused**, and what is built is the fragment of the expression. -/
theorem ofRegex_after : ∀ (e : Regex) (steps : List Step) {size : Nat} {edges : List Edge},
    Rooted size edges → machine.ofRegex e (after size edges steps) =
      .ok (afterFragment (e.fragment size) edges steps)
  | .leaf symbol, _, _, _, h => leaf_after h symbol
  | .concat a b, steps, size, _, h => by
    have tight := a.tight_fragment size
    have hleft := ofRegex_after a steps h
    have hright := ofRegex_after b (steps ++ (a.fragment size).steps) (h.fragment tight)
    rw [OperandMachine.ofRegex_concat hleft hright]
    exact concat_after tight (b.tight_fragment _)
  | .union a b, steps, size, _, h => by
    have tight := a.tight_fragment size
    have hleft := ofRegex_after a steps h
    have hright := ofRegex_after b (steps ++ (a.fragment size).steps) (h.fragment tight)
    rw [OperandMachine.ofRegex_union hleft hright]
    exact union_after h tight (b.tight_fragment _)
  | .star a, steps, size, _, h => by
    rw [OperandMachine.ofRegex_star (ofRegex_after a steps h)]
    exact star_after h (a.tight_fragment size)

/-- **Every edge refers to states that exist**, and every number is given to one. -/
theorem build_after (e : Regex) (steps : List Step) :
    (after (e.fragment 0).next (e.fragment 0).edges steps).build (ends (e.fragment 0)) =
      .ok e.toNfa := by
  have hcount := NfaBuilder.nextId_ofEdges (e.fragment 0).next (e.fragment 0).edges
  rw [NfaBuilder.nextId] at hcount
  rw [build, after, if_pos hcount.symm, ends, e.build_fragment]

/-- **Thompson's construction has no lapse** on the listing of an expression, and it makes the
automaton of the expression. -/
theorem compile_eq {p : Postfix} (h : p.items.map Item.entry = p.expression.listing) :
    compile p.tokens = .ok (p.expression.toNfa,
      .listing p.text false :: (p.expression.fragment 0).steps) := by
  have hroot : Rooted 0 [] := nofun
  have hmade := ofRegex_after p.expression [.listing p.text false] hroot
  have hread : machine.read p.tokens ⟨0, .empty, [.listing p.text false]⟩ = _ :=
    (machine.read_tokens h _).trans hmade
  have hbuild := build_after p.expression
    ([.listing p.text false] ++ (p.expression.fragment 0).steps)
  rw [Postfix.text_eq] at hread hbuild ⊢
  simp only [compile, hread, bind, Except.bind, afterFragment, List.nil_append, hbuild]
  rfl

end Compiler

end FormalLang
