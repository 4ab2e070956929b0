import FormalLang.Grammar.Basic
import FormalLang.Rounds

/-!
# FIRST sets

The FIRST set of a variable holds the terminals that what it derives can begin with, and `ε` if it
derives the empty string.  The sets are the least solution of one equation for each variable: its
set is the union of the FIRST sets of its bodies.

**How they are found.**  All sets begin empty.  Variables wait in a queue to be looked at; when the
set of one grows, the variables with a body that mentions it are put at the end of the queue.  A set
grows at most once for each terminal and once for `ε`, which bounds the rounds.
-/

namespace FormalLang

/-- **The FIRST set of every variable.** -/
structure FirstSets where
  sets : OrderedMap String (OrderedSet Symbol)
  deriving DecidableEq

namespace FirstSets

/-- The FIRST set of a variable. -/
def get? (first : FirstSets) (name : String) : Option (OrderedSet Symbol) := first.sets.find? name

/-- The FIRST set of a sequence of symbols.  It holds `ε` exactly if every symbol can derive the
empty string. -/
def ofBody (first : FirstSets) : List Symbol → Except Fault (OrderedSet Symbol)
  | [] => .ok (.singleton .epsilon)
  | .epsilon :: rest => first.ofBody rest
  | .terminal t :: _ => .ok (.singleton (.terminal t))
  | .variable name :: rest =>
    match first.get? name with
    | none => .error .missingSets
    | some s =>
      if .epsilon ∈ s then
        match first.ofBody rest with
        | .error f => .error f
        | .ok r => .ok ((s.filter fun x => x ≠ .epsilon) ∪ r)
      else .ok s

/-- The union of the FIRST sets of some bodies. -/
def ofBodies (first : FirstSets) : List Body → Except Fault (OrderedSet Symbol)
  | [] => .ok ∅
  | body :: rest =>
    match first.ofBody body with
    | .error f => .error f
    | .ok s =>
      match first.ofBodies rest with
      | .error f => .error f
      | .ok r => .ok (s ∪ r)

/-! ## 1. The search -/

/-- The search for the FIRST sets in progress. -/
structure Search where
  first : FirstSets
  /-- The variables to be looked at, the next one first. -/
  pending : List String
  /-- Which sets grew so far, and to how many symbols. -/
  growth : List (String × Nat)

/-- The heads with a body that mentions a variable, in the order of their names. -/
def dependents (g : Grammar) (name : String) : OrderedSet String :=
  OrderedSet.ofList ((g.rules.filter fun r => decide (.variable name ∈ r.body)).map Rule.head)

/-- Appends the names that are not in a queue already. -/
def enqueue (queue : List String) (names : List String) : List String :=
  queue ++ names.filter fun name => decide (name ∉ queue)

/-- Looks at the next variable. -/
def Search.step (g : Grammar) (s : Search) : Except Fault (Option Search) :=
  match s.pending with
  | [] => .ok none
  | head :: rest =>
    match g.getBodies head with
    | .error f => .error f
    | .ok bodies =>
      match s.first.ofBodies bodies with
      | .error f => .error f
      | .ok found =>
        match s.first.get? head with
        | none => .error .missingSets
        | some known =>
          if found.size = known.size then .ok (some { s with pending := rest })
          else .ok (some {
            first := ⟨s.first.sets.insert head found⟩
            pending := enqueue rest (dependents g head).toList
            growth := s.growth ++ [(head, found.size)] })

/-- The empty set for every variable. -/
def blank (g : Grammar) : FirstSets := ⟨OrderedMap.ofList (g.variableNames.map fun v => (v, ∅))⟩

/-- A number of rounds that suffices. -/
def rounds (g : Grammar) (order : List String) : Nat :=
  order.length + g.variableNames.length * g.variableNames.length * (g.terminals.size + 1) + 1

/-- The finished search that looks at the variables in the given order first. -/
def search (g : Grammar) (order : List String) : Except Fault Search :=
  iterateE (Search.step g) (rounds g order) ⟨blank g, order, []⟩

/-- **The FIRST sets of a grammar**, found by looking at the variables in the given order first. -/
def compute (g : Grammar) (order : List String) : Except Fault FirstSets :=
  match search g order with
  | .error f => .error f
  | .ok s => .ok s.first

/-- The FIRST sets of a grammar. -/
def ofGrammar (g : Grammar) : Except Fault FirstSets := compute g g.variableNames

end FirstSets

end FormalLang
