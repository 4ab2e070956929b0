/-!
# Putting texts together

Separated lists, lines, padded columns and braces: the few shapes from which every report of the
library is written.
-/

namespace FormalLang.Text

/-- The parts one after the other. -/
def concat : List String → String
  | [] => ""
  | part :: rest => part ++ concat rest

/-- The parts with a separator between neighbours. -/
def joinWith (separator : String) : List String → String
  | [] => ""
  | [part] => part
  | part :: rest => part ++ separator ++ joinWith separator rest

/-- The parts as lines, each one ended by a line break. -/
def unlines : List String → String
  | [] => ""
  | line :: rest => line ++ "\n" ++ unlines rest

/-- A text filled up with blanks on the right to a width counted in characters. -/
def padRight (width : Nat) (text : String) : String :=
  text ++ String.ofList (List.replicate (width - text.length) ' ')

/-- A text between braces. -/
def braced (text : String) : String := "\x7b" ++ text ++ "\x7d"

/-- Numbers separated by commas without blanks, such as `1,2,3`. -/
def commaList (ns : List Nat) : String := joinWith "," (ns.map toString)

/-- Numbers separated by a comma and a blank, such as `1, 2, 3`. -/
def spacedList (ns : List Nat) : String := joinWith ", " (ns.map toString)

/-- A truth value as a word. -/
def ofBool (b : Bool) : String := if b then "true" else "false"

end FormalLang.Text
