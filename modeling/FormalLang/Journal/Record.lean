/-!
# The journal

What the constructions do can be followed in a journal: a list of records, each with a level of
detail.  The records are read off the results of the constructions and do not influence them.
-/

namespace FormalLang

/-- How detailed a record is, the most important ones first. -/
inductive Level where
  | warn
  | debug
  | trace
  deriving DecidableEq

namespace Level

/-- The name that a level is written with. -/
def name : Level → String
  | .warn => "WARN"
  | .debug => "DEBUG"
  | .trace => "TRACE"

/-- The depth of a level. -/
def depth : Level → Nat
  | .warn => 0
  | .debug => 1
  | .trace => 2

end Level

/-- A line of the journal. -/
structure Record where
  level : Level
  text : String
  deriving DecidableEq

namespace Record

/-- The line with its level in front. -/
def render (r : Record) : String := r.level.name ++ " " ++ r.text

/-- The records up to a level of detail. -/
def upTo (limit : Level) (rs : List Record) : List Record :=
  rs.filter fun r => decide (r.level.depth ≤ limit.depth)

end Record

end FormalLang
