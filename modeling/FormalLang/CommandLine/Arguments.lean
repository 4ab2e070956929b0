/-!
# The grammar of arguments

An argument is one of four things: `--` ends the options; `--name` or `--name=value` names an
option; `-abc` is a cluster of one-letter options; and everything else, a lone `-` included, is a
plain argument.

**Values.**  An option that takes a value finds it behind `=`, in the rest of its cluster, or in the
next argument, which then must not look like an option.

**Which interruption wins.**  Arguments are checked from left to right, so that reading stops at the
first one that is wrong, or that asks for the version or for help.  What is missing shows only when
all arguments have been read.
-/

namespace FormalLang.CommandLine

/-- Why reading the arguments stopped. -/
inductive Interruption where
  /-- The version was asked for. -/
  | version
  /-- Help was asked for. -/
  | help
  /-- The arguments are wrong. -/
  | misuse
  deriving DecidableEq

/-- An option that takes a value. -/
inductive Setting where
  | method
  | format
  | epsilon
  | suffix
  | start
  | parse
  deriving DecidableEq

/-- What an option does. -/
inductive OptionKind where
  | verbose
  | version
  | help
  | setting (s : Setting)
  deriving DecidableEq

/-- The options before or behind a command, by their long and short names. -/
structure OptionNames where
  long : String → Option OptionKind
  short : Char → Option OptionKind

/-- What a command accepts. -/
structure ArgumentRules where
  names : OptionNames
  /-- Whether a text can be the value of an option. -/
  isValue : Setting → String → Bool
  /-- Whether a text can be the plain argument. -/
  isPlain : String → Bool

/-- Whether an option can stand more than once. -/
def Setting.repeats : Setting → Bool
  | .epsilon => true
  | _ => false

/-! ## 1. Words -/

/-- What an argument looks like. -/
inductive Word where
  | plain (text : String)
  | long (name : String) (value : Option String)
  | cluster (letters : List Char)
  /-- The end of the options. -/
  | stop
  deriving DecidableEq

/-- The texts before and behind the first `=`. -/
def splitEquals : List Char → List Char × Option (List Char)
  | [] => ([], none)
  | c :: cs =>
    if c = '=' then ([], some cs)
    else
      let parts := splitEquals cs
      (c :: parts.1, parts.2)

/-- What an argument looks like. -/
def Word.ofText (text : String) : Word :=
  match text.toList with
  | ['-', '-'] => .stop
  | '-' :: '-' :: rest =>
    let parts := splitEquals rest
    .long (String.ofList parts.1) (parts.2.map String.ofList)
  | '-' :: c :: rest => .cluster (c :: rest)
  | _ => .plain text

/-- Whether an argument can be the value of the option before it. -/
def canBeValue (text : String) : Bool :=
  match Word.ofText text with
  | .plain _ => true
  | _ => false

/-! ## 2. Options -/

/-- What a word with options asks for: how often to be more verbose, and at most one option with a
value, which may still be missing. -/
structure Request where
  verbosity : Nat
  setting : Option (Setting × Option String)
  deriving DecidableEq

/-- The value in the rest of a cluster; a leading `=` does not belong to it. -/
def clusterValue : List Char → Option String
  | [] => none
  | '=' :: rest => some (String.ofList rest)
  | rest => some (String.ofList rest)

/-- Reads a cluster of one-letter options. -/
def readCluster (names : OptionNames) : List Char → Except Interruption Request
  | [] => .ok ⟨0, none⟩
  | c :: rest =>
    match names.short c with
    | none => .error .misuse
    | some .version => .error .version
    | some .help => .error .help
    | some (.setting s) => .ok ⟨0, some (s, clusterValue rest)⟩
    | some .verbose =>
      match readCluster names rest with
      | .error i => .error i
      | .ok request => .ok { request with verbosity := request.verbosity + 1 }

/-- Reads a long option. -/
def readLong (names : OptionNames) (name : String) (value : Option String) :
    Except Interruption Request :=
  match names.long name, value with
  | none, _ => .error .misuse
  | some (.setting s), value => .ok ⟨0, some (s, value)⟩
  | some _, some _ => .error .misuse
  | some .version, none => .error .version
  | some .help, none => .error .help
  | some .verbose, none => .ok ⟨1, none⟩

/-- Reads a word that holds options. -/
def readOptions (names : OptionNames) : Word → Except Interruption Request
  | .long name value => readLong names name value
  | .cluster letters => readCluster names letters
  | .plain _ => .error .misuse
  | .stop => .error .misuse

/-! ## 3. All arguments -/

/-- The arguments of a command, sorted: how often it is to be more verbose, its plain argument, and
the values of its options in order. -/
structure Arguments where
  verbosity : Nat
  plain : Option String
  settings : List (Setting × String)
  deriving DecidableEq

namespace Arguments

/-- No arguments. -/
def empty : Arguments := ⟨0, none, []⟩

/-- The values of an option, in order. -/
def valuesOf (a : Arguments) (s : Setting) : List String :=
  (a.settings.filter fun p => decide (p.1 = s)).map Prod.snd

/-- The first value of an option. -/
def value? (a : Arguments) (s : Setting) : Option String := (a.valuesOf s).head?

/-- The same arguments, and more verbose. -/
def raise (a : Arguments) (verbosity : Nat) : Arguments :=
  { a with verbosity := a.verbosity + verbosity }

/-- Adds the plain argument; there is room for one. -/
def addPlain (rules : ArgumentRules) (a : Arguments) (text : String) :
    Except Interruption Arguments :=
  if rules.isPlain text && a.plain.isNone then .ok { a with plain := some text }
  else .error .misuse

/-- Adds plain arguments. -/
def addPlains (rules : ArgumentRules) : Arguments → List String → Except Interruption Arguments
  | a, [] => .ok a
  | a, text :: rest =>
    match a.addPlain rules text with
    | .error i => .error i
    | .ok a => addPlains rules a rest

/-- Adds the value of an option; most options have room for one. -/
def addSetting (rules : ArgumentRules) (a : Arguments) (s : Setting) (value : String) :
    Except Interruption Arguments :=
  if rules.isValue s value && (s.repeats || (a.value? s).isNone) then
    .ok { a with settings := a.settings ++ [(s, value)] }
  else .error .misuse

end Arguments

/-- Reads the arguments of a command, after those read before. -/
def readArguments (rules : ArgumentRules) :
    Arguments → List String → Except Interruption Arguments
  | a, [] => .ok a
  | a, text :: rest =>
    match Word.ofText text with
    | .stop => a.addPlains rules rest
    | .plain text =>
      match a.addPlain rules text with
      | .error i => .error i
      | .ok a => readArguments rules a rest
    | word =>
      match readOptions rules.names word with
      | .error i => .error i
      | .ok ⟨verbosity, none⟩ => readArguments rules (a.raise verbosity) rest
      | .ok ⟨verbosity, some (s, some value)⟩ =>
        match (a.raise verbosity).addSetting rules s value with
        | .error i => .error i
        | .ok a => readArguments rules a rest
      | .ok ⟨verbosity, some (s, none)⟩ =>
        match rest with
        | [] => .error .misuse
        | value :: rest =>
          if canBeValue value then
            match (a.raise verbosity).addSetting rules s value with
            | .error i => .error i
            | .ok a => readArguments rules a rest
          else .error .misuse

end FormalLang.CommandLine
