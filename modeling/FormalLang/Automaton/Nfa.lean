import FormalLang.Fault
import FormalLang.Ordered.Map
import FormalLang.Regex.Basic
import FormalLang.Rounds

/-!
# Nondeterministic automata

An automaton has states `0, 1, …`, one start state and one accept state.  An edge is labelled with a
character or consumes no input.  `Nfa.ofEdges` groups a list of edges by their source and label and
keeps the order in which they are listed.

**Two readings of one automaton.**  `closure`, `moveOn` and `symbols` compute with sets of states;
`Nfa.Path` says which words lead from one state to another.  A state that does not exist has no
transitions; the functions whose name begins with `try` refuse to speak of one.
-/

namespace FormalLang

/-- The label of an edge. -/
inductive Label where
  /-- The edge consumes no input. -/
  | epsilon
  | char (c : Char)
  deriving DecidableEq

namespace Label

/-- The character a label is written with. -/
def toChar : Label → Char
  | .epsilon => epsilonChar
  | .char c => c

/-- The word that an edge with this label consumes. -/
def word : Label → List Char
  | .epsilon => []
  | .char c => [c]

/-- The character of a label that has one. -/
def char? : Label → Option Char
  | .epsilon => none
  | .char c => some c

/-- Edges without input come first, the others in the order of their characters. -/
instance : Ordered Label :=
  Ordered.ofKey (fun | .epsilon => 0 | .char c => c.toNat + 1) (by
    rintro (_ | a) (_ | b) h
    · rfl
    · simp only at h
      omega
    · simp only at h
      omega
    · simp only [Nat.add_right_cancel_iff] at h
      rw [Char.ext (UInt32.toNat_inj.mp h)])

end Label

/-- An edge between two states. -/
structure Edge where
  source : Nat
  label : Label
  target : Nat
  deriving DecidableEq

/-- A state with its outgoing edges: for each label the targets, in the order of the edges. -/
structure Nfa.State where
  id : Nat
  transitions : OrderedMap Label (List Nat)
  deriving DecidableEq

/-- **A nondeterministic automaton.**  The states are listed by their number. -/
structure Nfa where
  start : Nat
  accept : Nat
  states : List Nfa.State
  deriving DecidableEq

namespace Nfa

/-! ## 1. Building an automaton -/

/-- Adds an edge to the transitions of its source. -/
def addEdge (transitions : OrderedMap Label (List Nat)) (e : Edge) : OrderedMap Label (List Nat) :=
  transitions.alter e.label fun targets => targets.getD [] ++ [e.target]

/-- The state with a number, given all edges of the automaton. -/
def stateOfEdges (edges : List Edge) (id : Nat) : State :=
  ⟨id, (edges.filter fun e => e.source = id).foldl addEdge ∅⟩

/-- The automaton with a number of states and a list of edges. -/
def ofEdges (size start accept : Nat) (edges : List Edge) : Nfa :=
  ⟨start, accept, (List.range size).map (stateOfEdges edges)⟩

/-! ## 2. Reading an automaton -/

/-- The number of states. -/
def size (nfa : Nfa) : Nat := nfa.states.length

/-- The targets of a state's edges with a label. -/
def State.targets (s : State) (label : Label) : List Nat := (s.transitions.find? label).getD []

/-- The targets of the edges with a label out of the state with a number. -/
def targets (nfa : Nfa) (id : Nat) (label : Label) : List Nat :=
  match nfa.states[id]? with
  | none => []
  | some s => s.targets label

/-- The characters on the edges out of the state with a number. -/
def symbolsOf (nfa : Nfa) (id : Nat) : List Char :=
  match nfa.states[id]? with
  | none => []
  | some s => s.transitions.keys.filterMap Label.char?

/-- The states reached from a set of states by one edge labelled with a character. -/
def moveOn (nfa : Nfa) (states : OrderedSet Nat) (c : Char) : OrderedSet Nat :=
  OrderedSet.unionOf (fun id => OrderedSet.ofList (nfa.targets id (.char c))) states.toList

/-- The characters with an edge out of a set of states. -/
def symbols (nfa : Nfa) (states : OrderedSet Nat) : OrderedSet Char :=
  OrderedSet.unionOf (fun id => OrderedSet.ofList (nfa.symbolsOf id)) states.toList

/-! ## 3. Closure under edges without input -/

/-- A search in progress: the states seen so far, and those among them whose edges are still to be
followed. -/
structure Search where
  seen : OrderedSet Nat
  pending : List Nat

namespace Search

/-- Takes note of a state; one seen before is not followed again. -/
def note (s : Search) (id : Nat) : Search :=
  if id ∈ s.seen then s else ⟨s.seen.insert id, id :: s.pending⟩

/-- Follows the edges without input out of the last pending state. -/
def step (nfa : Nfa) (s : Search) : Option Search :=
  match s.pending with
  | [] => none
  | id :: rest => some ((nfa.targets id .epsilon).foldl note ⟨s.seen, rest⟩)

end Search

/-- **The epsilon closure**: the states reached from the seeds by edges without input.  Every state
is followed at most once for each time it is a seed, and once more if it is found. -/
def closure (nfa : Nfa) (seeds : List Nat) : OrderedSet Nat :=
  (iterate (Search.step nfa) (seeds.length + nfa.size + 1)
    ⟨OrderedSet.ofList seeds, seeds.reverse⟩).seen

/-! ## 4. Questions that may name a missing state -/

/-- The state with a number. -/
def getState (nfa : Nfa) (id : Nat) : Except Fault State :=
  match nfa.states[id]? with
  | none => .error .missingState
  | some s => .ok s

/-- Whether all states of a list exist. -/
def hasStates (nfa : Nfa) (ids : List Nat) : Bool := ids.all fun id => decide (id < nfa.size)

/-- The closure of existing states. -/
def tryClosure (nfa : Nfa) (seeds : List Nat) : Except Fault (OrderedSet Nat) :=
  if nfa.hasStates seeds then .ok (nfa.closure seeds) else .error .missingState

/-- The move from existing states. -/
def tryMoveOn (nfa : Nfa) (states : OrderedSet Nat) (c : Char) : Except Fault (OrderedSet Nat) :=
  if nfa.hasStates states.toList then .ok (nfa.moveOn states c) else .error .missingState

/-- The characters out of existing states. -/
def trySymbols (nfa : Nfa) (states : OrderedSet Nat) : Except Fault (OrderedSet Char) :=
  if nfa.hasStates states.toList then .ok (nfa.symbols states) else .error .missingState

/-! ## 5. Paths -/

/-- Whether an automaton has an edge. -/
def HasEdge (nfa : Nfa) (source : Nat) (label : Label) (target : Nat) : Prop :=
  target ∈ nfa.targets source label

/-- **Paths**: whether the edges from one state to another can spell a word. -/
inductive Path (nfa : Nfa) : Nat → List Char → Nat → Prop where
  | refl (id : Nat) : Path nfa id [] id
  | cons {p q r : Nat} {label : Label} {w : List Char} (edge : nfa.HasEdge p label q)
      (rest : Path nfa q w r) : Path nfa p (label.word ++ w) r

/-- Whether an automaton is in order: its states carry their own numbers, and the start state, the
accept state and all targets exist. -/
structure WellFormed (nfa : Nfa) : Prop where
  ids : nfa.states.map State.id = List.range nfa.size
  start_lt : nfa.start < nfa.size
  accept_lt : nfa.accept < nfa.size
  targets_lt : ∀ p label q, nfa.HasEdge p label q → q < nfa.size

end Nfa

end FormalLang
