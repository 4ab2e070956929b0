import FormalLang.Grammar.First

/-!
# FOLLOW sets

The FOLLOW set of a variable holds the terminals that can come right after it in a sentential form;
the end of the input follows the start variable.

**How they are found.**  One pass over all bodies collects what stands behind each variable and
which variables end a body, at least when what stands behind them vanishes; such a variable is
followed by all that follows the head.  Then the sets are handed on along these links, through a
queue of variables, until nothing grows.
-/

namespace FormalLang

/-- **The FOLLOW set of every variable.** -/
structure FollowSets where
  sets : OrderedMap String (OrderedSet Terminal)
  deriving DecidableEq

namespace FollowSets

/-- The FOLLOW set of a variable. -/
def get? (follow : FollowSets) (name : String) : Option (OrderedSet Terminal) :=
  follow.sets.find? name

/-- The FOLLOW set of a name; a name without a set is followed by nothing. -/
def getD (follow : FollowSets) (name : String) : OrderedSet Terminal := (follow.get? name).getD ∅

/-! ## 1. What stands behind a variable -/

/-- What is known after looking at some bodies. -/
structure Seeds where
  follow : FollowSets
  /-- For each head the variables that are followed by all that follows it. -/
  heirs : OrderedMap String (OrderedSet String)

/-- The terminals in a FIRST set. -/
def terminalsOf (s : OrderedSet Symbol) : OrderedSet Terminal :=
  OrderedSet.ofList (s.toList.filterMap Symbol.terminal?)

/-- Looks at every variable in a body of a head. -/
def Seeds.addBody (first : FirstSets) (head : String) (seeds : Seeds) :
    List Symbol → Except Fault Seeds
  | [] => .ok seeds
  | .variable name :: rest =>
    match first.ofBody rest with
    | .error f => .error f
    | .ok behind =>
      match seeds.follow.get? name with
      | none => .error .missingSets
      | some known =>
        let follow := ⟨seeds.follow.sets.insert name (known ∪ terminalsOf behind)⟩
        let heirs :=
          if .epsilon ∈ behind ∧ name ≠ head then
            seeds.heirs.alter head fun s => (s.getD ∅).insert name
          else seeds.heirs
        addBody first head ⟨follow, heirs⟩ rest
  | _ :: rest => addBody first head seeds rest

/-- Looks at some bodies of a head. -/
def Seeds.addBodies (first : FirstSets) (head : String) (seeds : Seeds) :
    List Body → Except Fault Seeds
  | [] => .ok seeds
  | body :: rest =>
    match seeds.addBody first head body with
    | .error f => .error f
    | .ok seeds => addBodies first head seeds rest

/-- Looks at all bodies of some variables. -/
def Seeds.addHeads (g : Grammar) (first : FirstSets) (seeds : Seeds) :
    List String → Except Fault Seeds
  | [] => .ok seeds
  | head :: rest =>
    match g.getBodies head with
    | .error f => .error f
    | .ok bodies =>
      match seeds.addBodies first head bodies with
      | .error f => .error f
      | .ok seeds => addHeads g first seeds rest

/-- The empty set for every variable but the start, which the end of the input follows. -/
def blank (g : Grammar) : FollowSets :=
  ⟨(OrderedMap.ofList (g.variableNames.map fun v => (v, ∅))).alter g.start fun s =>
    (s.getD ∅).insert .endOfInput⟩

/-! ## 2. Handing sets on -/

/-- The sets on their way along the links. -/
structure Search where
  follow : FollowSets
  /-- The variables whose set is to be handed on, the next one first. -/
  pending : List String

/-- Hands a set on to one heir, which waits for its turn if its set grew. -/
def Search.handTo (handed : OrderedSet Terminal) (s : Search) (heir : String) : Search :=
  let known := s.follow.getD heir
  let grown := known ∪ handed
  if grown.size = known.size then s
  else ⟨⟨s.follow.sets.insert heir grown⟩,
    if heir ∈ s.pending then s.pending else s.pending ++ [heir]⟩

/-- Hands on the set of the next variable. -/
def Search.step (heirs : OrderedMap String (OrderedSet String)) (s : Search) : Option Search :=
  match s.pending with
  | [] => none
  | head :: rest =>
    match heirs.find? head with
    | none => some { s with pending := rest }
    | some names =>
      some (names.toList.foldl (Search.handTo (s.follow.getD head)) { s with pending := rest })

/-- A number of rounds that suffices: a set can only take up what some set held at first. -/
def rounds (follow : FollowSets) (order : List String) : Nat :=
  order.length + follow.sets.size * (follow.sets.values.flatMap OrderedSet.toList).length + 1

/-- **The FOLLOW sets of a grammar**, found by looking at the variables in the given order first. -/
def compute (g : Grammar) (first : FirstSets) (order : List String) : Except Fault FollowSets :=
  match Seeds.addHeads g first ⟨blank g, ∅⟩ order with
  | .error f => .error f
  | .ok seeds =>
    .ok (iterate (Search.step seeds.heirs) (rounds seeds.follow order)
      ⟨seeds.follow, order⟩).follow

/-- The FOLLOW sets of a grammar, given FIRST sets. -/
def ofGrammar (g : Grammar) (first : FirstSets) : Except Fault FollowSets :=
  compute g first g.variableNames

end FollowSets

end FormalLang
