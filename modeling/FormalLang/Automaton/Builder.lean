import FormalLang.Automaton.Nfa

/-!
# Building a nondeterministic automaton

States are added one at a time and take the next number.  An edge is added to the transitions of its
source, which has to exist by then; its target may be added later.  `build` checks the whole: the
targets of all edges exist, and so do the start and the accept state.
-/

namespace FormalLang

/-- An automaton in the making: its states so far, listed by their number. -/
structure NfaBuilder where
  states : List Nfa.State
  deriving DecidableEq

namespace NfaBuilder

/-- Why a builder refuses to go on. -/
inductive Refusal where
  /-- An edge is to be added to a state that does not exist. -/
  | missingSource
  | missingTarget
  /-- The start or the accept state does not exist. -/
  | missingEndpoint
  deriving DecidableEq

/-- The wording of a refusal. -/
def Refusal.message : Refusal → String
  | .missingSource => "state does not exist"
  | .missingTarget => "one or more destination states found that do not exist"
  | .missingEndpoint => "start or accept state is not a valid state"

/-- The builder without states. -/
def empty : NfaBuilder := ⟨[]⟩

/-- The number that the next state takes. -/
def nextId (b : NfaBuilder) : Nat := b.states.length

/-- Adds a state without edges. -/
def addState (b : NfaBuilder) : NfaBuilder := ⟨b.states ++ [⟨b.nextId, ∅⟩]⟩

/-- Adds an edge behind those that its source has with the same label. -/
def addEdge (b : NfaBuilder) (e : Edge) : Except Refusal NfaBuilder :=
  match b.states[e.source]? with
  | none => .error .missingSource
  | some s => .ok ⟨b.states.set e.source ⟨s.id, Nfa.addEdge s.transitions e⟩⟩

/-- The numbers of the states. -/
def ids (b : NfaBuilder) : List Nat := b.states.map Nfa.State.id

/-- The targets of all edges. -/
def targets (b : NfaBuilder) : List Nat := b.states.flatMap fun s => s.transitions.values.flatten

/-- **The automaton of the states and edges**, if they make one. -/
def build (b : NfaBuilder) (start accept : Nat) : Except Refusal Nfa :=
  if ∀ id ∈ b.targets, id ∈ b.ids then
    if start ∈ b.ids ∧ accept ∈ b.ids then .ok ⟨start, accept, b.states⟩
    else .error .missingEndpoint
  else .error .missingTarget

end NfaBuilder

end FormalLang
