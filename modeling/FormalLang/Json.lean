import FormalLang.Text.Layout

/-!
# Structured values and their text

The reports of the library are trees of fields, lists, numbers and texts.  A `Json` value keeps its
fields in the order in which they are written, and keeps a field that is written twice.

**The text** has one item or field a line, indented by two blanks for each level; an empty list or
an empty object stays on one line.  In a quoted text only the quote, the backslash and the control
characters are escaped.
-/

namespace FormalLang

/-- A value of the report format.  All numbers are natural. -/
inductive Json where
  | null
  | bool (value : Bool)
  | number (value : Nat)
  | text (value : String)
  | list (items : List Json)
  | object (fields : List (String × Json))
  deriving Inhabited

namespace Json

/-! ## 1. Quoted texts -/

/-- The digit of a number below sixteen. -/
def hexDigit (n : Nat) : Char := if n < 10 then Char.ofNat (48 + n) else Char.ofNat (87 + n)

/-- What is written for a character between quotes. -/
def escape (c : Char) : String :=
  if c = '"' then "\\\""
  else if c = '\\' then "\\\\"
  else if c = '\n' then "\\n"
  else if c = '\r' then "\\r"
  else if c = '\t' then "\\t"
  else if c.toNat = 8 then "\\b"
  else if c.toNat = 12 then "\\f"
  else if c.toNat < 32 then
    String.ofList ['\\', 'u', '0', '0', hexDigit (c.toNat / 16), hexDigit (c.toNat % 16)]
  else String.ofList [c]

/-- A text between quotes. -/
def quote (s : String) : String := "\"" ++ Text.concat (s.toList.map escape) ++ "\""

/-! ## 2. Layout -/

/-- The beginning of a line at a level of nesting. -/
def indent (level : Nat) : String := String.ofList ('\n' :: List.replicate (2 * level) ' ')

mutual

/-- The text of a value that stands at a level of nesting. -/
def renderAt (level : Nat) : Json → String
  | .null => "null"
  | .bool b => Text.ofBool b
  | .number n => toString n
  | .text s => quote s
  | .list [] => "[]"
  | .list (item :: rest) =>
    "[" ++ indent (level + 1) ++ renderAt (level + 1) item ++ renderItems (level + 1) rest ++
      indent level ++ "]"
  | .object [] => "\x7b\x7d"
  | .object ((name, value) :: rest) =>
    "\x7b" ++ indent (level + 1) ++ quote name ++ ": " ++ renderAt (level + 1) value ++
      renderFields (level + 1) rest ++ indent level ++ "\x7d"

/-- The items of a list after the first one. -/
def renderItems (level : Nat) : List Json → String
  | [] => ""
  | item :: rest => "," ++ indent level ++ renderAt level item ++ renderItems level rest

/-- The fields of an object after the first one. -/
def renderFields (level : Nat) : List (String × Json) → String
  | [] => ""
  | (name, value) :: rest =>
    "," ++ indent level ++ quote name ++ ": " ++ renderAt level value ++ renderFields level rest

end

/-- The text of a value, over several lines. -/
def render (value : Json) : String := renderAt 0 value

/-! ## 3. Common shapes -/

/-- A list of numbers. -/
def numbers (ns : List Nat) : Json := .list (ns.map .number)

/-- A list of texts. -/
def texts (ss : List String) : Json := .list (ss.map .text)

/-- A value that may be absent. -/
def optional {α : Type} (f : α → Json) : Option α → Json
  | none => .null
  | some a => f a

end Json

end FormalLang
