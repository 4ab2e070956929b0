import FormalLang.Grammar.Follow

/-!
# Predictive parsing tables

For a variable and the next terminal of the input, a table says with which body to replace the
variable.  A body is entered under the terminals of its FIRST set and, if it can derive the empty
string, under those that follow its variable.

**Conflicts.**  Two bodies of one variable under one terminal make a conflict, even if they are the
same: bodies are told apart by their place.  The first conflict ends the construction; rules are
entered in the order of their declaration and terminals in ascending order.
-/

namespace FormalLang

/-- A body in a cell, with its place among the bodies of its variable. -/
structure Cell where
  alternative : Nat
  body : Body
  deriving DecidableEq

/-- **A predictive parsing table.** -/
structure ParseTable where
  cells : OrderedMap (String × Terminal) Cell
  deriving DecidableEq

/-- Two bodies of a variable that compete for a cell. -/
structure Conflict where
  head : String
  terminal : Terminal
  existing : Body
  conflicting : Body
  deriving DecidableEq

/-- The wording of a conflict. -/
def Conflict.message (c : Conflict) : String :=
  "grammar is not LL(1): conflict at " ++ c.head ++ " for terminal " ++ c.terminal.text ++
    " between `" ++ c.head ++ " -> " ++ c.existing.text ++ "` and `" ++ c.head ++ " -> " ++
    c.conflicting.text ++ "`"

/-- Why there is no table. -/
inductive TableError where
  | conflict (c : Conflict)
  /-- The sets do not belong to the grammar. -/
  | fault (f : Fault)
  deriving DecidableEq

namespace ParseTable

/-- The table without cells. -/
def empty : ParseTable := ⟨∅⟩

/-- The cell of a variable and a terminal. -/
def get? (t : ParseTable) (name : String) (terminal : Terminal) : Option Cell :=
  t.cells.find? (name, terminal)

/-- The number of cells. -/
def size (t : ParseTable) : Nat := t.cells.size

/-- Whether there are no cells. -/
def isEmpty (t : ParseTable) : Bool := t.cells.isEmpty

/-- Enters a rule under a terminal. -/
def enter (t : ParseTable) (rule : Rule) (terminal : Terminal) : Except Conflict ParseTable :=
  match t.get? rule.head terminal with
  | none => .ok ⟨t.cells.insert (rule.head, terminal) ⟨rule.alternative, rule.body⟩⟩
  | some cell =>
    if cell.alternative = rule.alternative then .ok t
    else .error ⟨rule.head, terminal, cell.body, rule.body⟩

/-- Enters a rule under several terminals. -/
def enterAll (rule : Rule) (t : ParseTable) : List Terminal → Except Conflict ParseTable
  | [] => .ok t
  | terminal :: rest =>
    match t.enter rule terminal with
    | .error c => .error c
    | .ok t => enterAll rule t rest

/-- The terminals under which a body is entered, given its FIRST set: its own terminals, and then
those that follow its variable if it can vanish. -/
def predict (follow : FollowSets) (head : String) (firstOfBody : OrderedSet Symbol) :
    List Terminal :=
  firstOfBody.toList.filterMap Symbol.terminal? ++
    if .epsilon ∈ firstOfBody then (follow.getD head).toList else []

/-- Enters rules in order. -/
def enterRules (first : FirstSets) (follow : FollowSets) (t : ParseTable) :
    List Rule → Except TableError ParseTable
  | [] => .ok t
  | rule :: rest =>
    match first.ofBody rule.body with
    | .error f => .error (.fault f)
    | .ok firstOfBody =>
      match t.enterAll rule (predict follow rule.head firstOfBody) with
      | .error c => .error (.conflict c)
      | .ok t => enterRules first follow t rest

/-- **The table of a grammar**, given FIRST and FOLLOW sets. -/
def build (g : Grammar) (first : FirstSets) (follow : FollowSets) :
    Except TableError ParseTable :=
  enterRules first follow empty g.rules

/-- The line of a cell. -/
def cellLine (entry : (String × Terminal) × Cell) : String :=
  "M[" ++ entry.1.1 ++ ", " ++ entry.1.2.text ++ "] = " ++ entry.1.1 ++ " -> " ++
    entry.2.body.text

/-- The text of a table, one line for each cell. -/
def text (t : ParseTable) : String := Text.unlines (t.cells.toList.map cellLine)

end ParseTable

end FormalLang
