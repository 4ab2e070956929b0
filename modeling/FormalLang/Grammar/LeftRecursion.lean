import FormalLang.Grammar.Basic

/-!
# Removing left recursion

Variables are taken in the order of their declaration.  In the bodies of each one, every leading
earlier variable is replaced by its bodies; what then still begins with the variable itself,

    A -> A a | b

becomes `A -> b A'` and `A' -> a A' | ε` with a fresh variable, which is declared last.
`A -> A` derives nothing of its own and is dropped.

What happens is recorded as a list of events.
-/

namespace FormalLang

/-- What the removal of left recursion did. -/
inductive RecursionEvent where
  /-- Leading occurrences of an earlier variable were replaced in the bodies of another. -/
  | substituted (earlier head : String)
  /-- A body that is just its own head was dropped. -/
  | dropped (head : String)
  /-- All bodies of a variable begin with it. -/
  | unfounded (head : String)
  /-- A fresh variable took over the recursion of another. -/
  | introduced (head fresh : String)
  deriving DecidableEq

namespace Body

/-- One body after another, in normal form. -/
def append (front back : Body) : Body := normalize (front ++ back)

/-- Whether a body begins with a variable. -/
def beginsWith (name : String) (body : Body) : Bool := decide (body.head? = some (.variable name))

/-- Replaces a leading variable by each of some bodies. -/
def substitute (earlier : String) (replacements : List Body) (body : Body) : List Body :=
  if body.beginsWith earlier then replacements.map fun r => append r body.tail else [body]

end Body

namespace Grammar

/-- A grammar and the events that led to it. -/
structure Removal where
  grammar : Grammar
  events : List RecursionEvent
  deriving DecidableEq

namespace Removal

/-- Replaces the leading occurrences of an earlier variable in the bodies of another. -/
def substitute (head : String) (r : Removal) (earlier : String) : Removal :=
  let bodies := r.grammar.bodiesOf head
  if bodies.any (Body.beginsWith earlier) then
    let replacements := r.grammar.bodiesOf earlier
    ⟨r.grammar.setBodies head (bodies.flatMap (Body.substitute earlier replacements)),
      r.events ++ [.substituted earlier head]⟩
  else r

/-- Replaces the bodies of a variable that begin with it. -/
def removeDirect (suffix : String) (r : Removal) (head : String) : Removal :=
  let bodies := r.grammar.bodiesOf head
  let recursive := bodies.filter (Body.beginsWith head)
  if recursive.isEmpty then r
  else
    let others := bodies.filter fun body => !body.beginsWith head
    let tails := (recursive.map List.tail).filter fun tail => !tail.isEmpty
    let dropped := (recursive.filter fun body => body.tail.isEmpty).map fun _ =>
      RecursionEvent.dropped head
    if tails.isEmpty then ⟨r.grammar.setBodies head others, r.events ++ dropped⟩
    else
      let fresh := r.grammar.freshVariable head suffix
      let unfounded := if others.isEmpty then [RecursionEvent.unfounded head] else []
      let replaced := r.grammar.setBodies head
        (others.map fun body => body.append [.variable fresh])
      let added := ⟨fresh,
        (tails.map fun tail => Body.append tail [.variable fresh]) ++ [[.epsilon]]⟩
      ⟨{ replaced with productions := replaced.productions ++ [added] },
        r.events ++ dropped ++ unfounded ++ [.introduced head fresh]⟩

/-- Takes a variable, after those declared before it. -/
def visit (suffix : String) (r : Removal) (earlier : List String) (head : String) : Removal :=
  removeDirect suffix (earlier.foldl (substitute head) r) head

/-- Takes variables in order, after those that were taken before. -/
def visitAll (suffix : String) : Removal → List String → List String → Removal
  | r, _, [] => r
  | r, earlier, head :: rest =>
    visitAll suffix (visit suffix r earlier head) (earlier ++ [head]) rest

end Removal

/-- **The grammar without left recursion**, with the events of its removal. -/
def removeLeftRecursion (g : Grammar) (suffix : String) : Removal :=
  .visitAll suffix ⟨g, []⟩ [] g.variableNames

end Grammar

/-- The lines on an event in a report; most events have none. -/
def RecursionEvent.reportLines : RecursionEvent → List String
  | .introduced head fresh =>
    ["Removing left recursion from " ++ head, "Created new non-terminal " ++ fresh]
  | _ => []

end FormalLang
