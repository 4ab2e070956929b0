import FormalLang.CommandLine.Arguments
import FormalLang.Grammar.Options
import FormalLang.Report.Regex

/-!
# Invocations

An invocation is what the arguments ask the program to do.  There are two commands:

* `regex REGEX`, with `--method` and `--format`;
* `grammar FILE`, with `--epsilon` any number of times, `--suffix`, `--start`, `--parse` and
  `--format`.

`--verbose` stands anywhere and counts; every other option but `--epsilon` stands at most once.
-/

namespace FormalLang.CommandLine

/-- How a report on an expression is written. -/
inductive RegexFormat where
  | text
  | json
  | dot
  deriving DecidableEq

/-- How a report on a grammar is written. -/
inductive GrammarFormat where
  | text
  | json
  deriving DecidableEq

/-- A command with its options. -/
inductive Command where
  | regex (text : String) (method : RegexMethod) (format : RegexFormat)
  | grammar (file : String) (options : GrammarOptions) (input : Option String)
      (format : GrammarFormat)
  deriving DecidableEq

/-- **What the program is asked to do**, and how much it is to tell meanwhile. -/
structure Invocation where
  verbosity : Nat
  command : Command
  deriving DecidableEq

/-! ## 1. Names of options -/

/-- The options before a command. -/
def topNames : OptionNames where
  long name :=
    if name = "verbose" then some .verbose
    else if name = "version" then some .version
    else if name = "help" then some .help
    else none
  short c :=
    if c = 'v' then some .verbose
    else if c = 'V' then some .version
    else if c = 'h' then some .help
    else none

/-- The options of the command `regex`. -/
def regexNames : OptionNames where
  long name :=
    if name = "method" then some (.setting .method)
    else if name = "format" then some (.setting .format)
    else if name = "verbose" then some .verbose
    else if name = "help" then some .help
    else none
  short c :=
    if c = 'm' then some (.setting .method)
    else if c = 'f' then some (.setting .format)
    else if c = 'v' then some .verbose
    else if c = 'h' then some .help
    else none

/-- The options of the command `grammar`. -/
def grammarNames : OptionNames where
  long name :=
    if name = "epsilon" then some (.setting .epsilon)
    else if name = "suffix" then some (.setting .suffix)
    else if name = "start" then some (.setting .start)
    else if name = "parse" then some (.setting .parse)
    else if name = "format" then some (.setting .format)
    else if name = "verbose" then some .verbose
    else if name = "help" then some .help
    else none
  short c :=
    if c = 'p' then some (.setting .parse)
    else if c = 'f' then some (.setting .format)
    else if c = 'v' then some .verbose
    else if c = 'h' then some .help
    else none

/-! ## 2. Values of options -/

/-- The method with a name. -/
def methodOfName (name : String) : Option RegexMethod :=
  if name = "thompson" then some .thompson
  else if name = "syntax-tree" then some .syntaxTree
  else if name = "both" then some .both
  else none

/-- The format of a report on an expression with a name. -/
def regexFormatOfName (name : String) : Option RegexFormat :=
  if name = "text" then some .text
  else if name = "json" then some .json
  else if name = "dot" then some .dot
  else none

/-- The format of a report on a grammar with a name. -/
def grammarFormatOfName (name : String) : Option GrammarFormat :=
  if name = "text" then some .text
  else if name = "json" then some .json
  else none

/-- What the command `regex` accepts. -/
def regexRules : ArgumentRules where
  names := regexNames
  isValue
    | .method, name => (methodOfName name).isSome
    | .format, name => (regexFormatOfName name).isSome
    | _, _ => true
  isPlain _ := true

/-- What the command `grammar` accepts.  The name of a file is not empty. -/
def grammarRules : ArgumentRules where
  names := grammarNames
  isValue
    | .format, name => (grammarFormatOfName name).isSome
    | _, _ => true
  isPlain file := file ≠ ""

/-! ## 3. Commands -/

/-- The command `regex` with its arguments, if none is missing. -/
def regexCommand? (a : Arguments) : Option Command :=
  a.plain.map fun text =>
    .regex text (((a.value? .method).bind methodOfName).getD .both)
      (((a.value? .format).bind regexFormatOfName).getD .text)

/-- The options for reading a grammar that the arguments give. -/
def grammarOptions (markers : List String) (suffix start : Option String) : GrammarOptions :=
  let marked := markers.foldl GrammarOptions.addMarker .default
  let named :=
    match suffix with
    | none => marked
    | some s => marked.setSuffix s
  match start with
  | none => named
  | some v => named.setStart v

/-- The command `grammar` with its arguments, if none is missing. -/
def grammarCommand? (a : Arguments) : Option Command :=
  a.plain.map fun file =>
    .grammar file (grammarOptions (a.valuesOf .epsilon) (a.value? .suffix) (a.value? .start))
      (a.value? .parse) (((a.value? .format).bind grammarFormatOfName).getD .text)

/-- Reads the arguments of a command, given how verbose it is to be already. -/
def readBehind (rules : ArgumentRules) (command? : Arguments → Option Command) (verbosity : Nat)
    (rest : List String) : Except Interruption Invocation :=
  match readArguments rules .empty rest with
  | .error i => .error i
  | .ok a =>
    match command? a with
    | none => .error .misuse
    | some command => .ok ⟨verbosity + a.verbosity, command⟩

/-- Reads a command by its name and arguments. -/
def readCommand (verbosity : Nat) (name : String) (rest : List String) :
    Except Interruption Invocation :=
  if name = "regex" then readBehind regexRules regexCommand? verbosity rest
  else if name = "grammar" then readBehind grammarRules grammarCommand? verbosity rest
  else .error .misuse

/-- Reads the arguments of the program, given how verbose it is to be already. -/
def readFrom (verbosity : Nat) : List String → Except Interruption Invocation
  | [] => .error .misuse
  | text :: rest =>
    match Word.ofText text with
    | .plain name => readCommand verbosity name rest
    | .stop => .error .misuse
    | word =>
      match readOptions topNames word with
      | .error i => .error i
      | .ok request => readFrom (verbosity + request.verbosity) rest

/-- **What the arguments ask for.** -/
def Invocation.ofArguments (arguments : List String) : Except Interruption Invocation :=
  readFrom 0 arguments

end FormalLang.CommandLine
