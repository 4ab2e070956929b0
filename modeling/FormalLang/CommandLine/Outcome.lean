import FormalLang.CommandLine.Invocation
import FormalLang.Diagnostic
import FormalLang.Journal.Grammar
import FormalLang.Journal.Regex
import FormalLang.Report.Grammar

/-!
# What the program answers

The answer to an invocation is an exit code, the text for the standard output and, if something is
wrong, a complaint for the standard error.  Which source an invocation reads is known before it is
read, so that the answer is a function of the arguments and the contents of that source.

The exit code is 0 if all went well, 1 if something is wrong with an expression, a grammar, an input
or a file, and 2 if something is wrong with the arguments.

The journal of an invocation is apart from its answer: how much of it is told depends on the
verbosity, and the answer does not.
-/

namespace FormalLang.CommandLine

/-- An answer of the program. -/
structure Outcome where
  exit : Nat
  stdout : String
  complaint : Option String
  deriving DecidableEq

/-- The answer of an invocation in which all went well. -/
def Outcome.success (stdout : String) : Outcome := ⟨0, stdout, none⟩

/-- The answer of an invocation in which something is wrong, after what was written before. -/
def Outcome.failure (stdout : String) (d : Diagnostic) : Outcome := ⟨1, stdout, some d.message⟩

/-- What an invocation reads. -/
inductive Source where
  | nothing
  | standardInput
  | file (path : String)
  deriving DecidableEq

/-- What a command reads; the file `-` is the standard input. -/
def Command.source : Command → Source
  | .regex _ _ _ => .nothing
  | .grammar file _ _ _ => if file = "-" then .standardInput else .file file

/-! ## 1. Expressions -/

/-- The text of a report on an expression. -/
def regexOutput (r : RegexReport) : RegexFormat → String
  | .text => r.text
  | .json => r.toJson.render ++ "\n"
  | .dot => r.toDot ++ "\n"

/-- The answer to the command `regex`. -/
def runRegex (text : String) (method : RegexMethod) (format : RegexFormat) : Outcome :=
  match RegexReport.ofText method text.toList with
  | .error e => .failure "" (.ofRegexError text.toList e)
  | .ok report => .success (regexOutput report format)

/-- The records of the constructions that run. -/
def regexRecords (method : RegexMethod) (cs : List Char) : List Record :=
  (if method.runsThompson then Journal.ofThompson cs else []) ++
    if method.runsSyntaxTree then Journal.ofSyntaxTree cs else []

/-! ## 2. Grammars -/

/-- The text of a report on a grammar. -/
def grammarOutput (r : GrammarReport) : GrammarFormat → String
  | .text => r.text
  | .json => r.toJson.render ++ "\n"

/-- The answer to the command `grammar` on the contents of the file.  The report on an input that is
rejected is written before the failure. -/
def runGrammar (file : String) (options : GrammarOptions) (input : Option String)
    (format : GrammarFormat) (content : String) : Outcome :=
  let cs := content.toList
  match Analysis.ofText options cs with
  | .error e => .failure "" (.ofAnalysisError file cs e)
  | .ok analysis =>
    let report := GrammarReport.ofAnalysis analysis input
    let output := grammarOutput report format
    match report.rejected? with
    | none => .success output
    | some e => .failure output (.ofRejection e)

/-- The records of the analysis of a grammar, and of the parse of an input with it. -/
def grammarRecords (options : GrammarOptions) (input : Option String) (cs : List Char) :
    List Record :=
  Journal.ofAnalysisText options cs ++
    match Analysis.ofText options cs with
    | .error _ => []
    | .ok analysis =>
      input.toList.flatMap fun i => Journal.ofParse (analysis.parser.parse i.toList)

/-! ## 3. The program -/

/-- The version of the program. -/
def versionText : String := "lingo 0.1.0\n"

/-- How the program is called. -/
def usageText : String := Text.unlines [
  "Usage: lingo [-v]... regex REGEX [-m thompson|syntax-tree|both] [-f text|json|dot]",
  "       lingo [-v]... grammar FILE [--epsilon MARKER]... [--suffix SUFFIX] [--start VARIABLE]",
  "                     [-p INPUT] [-f text|json]"]

/-- The answer to arguments that ask for nothing to be run. -/
def Interruption.outcome : Interruption → Outcome
  | .version => .success versionText
  | .help => .success usageText
  | .misuse => ⟨2, "", some "error: invalid arguments"⟩

/-- The answer to an invocation, given the contents of its source if they can be read. -/
def Invocation.outcome (i : Invocation) (content : Option String) : Outcome :=
  match i.command, content with
  | .regex text method format, _ => runRegex text method format
  | .grammar file options input format, some content =>
    runGrammar file options input format content
  | .grammar file _ _ _, none => .failure "" (.ofUnreadable file)

/-- The least severe records that are told at a verbosity. -/
def Invocation.level (i : Invocation) : Level :=
  match i.verbosity with
  | 0 => .warn
  | 1 => .debug
  | _ => .trace

/-- The records that an invocation tells, given the contents of its source if they can be read. -/
def Invocation.journal (i : Invocation) (content : Option String) : List Record :=
  Record.upTo i.level
    (match i.command, content with
    | .regex text method _, _ => regexRecords method text.toList
    | .grammar _ options input _, some content => grammarRecords options input content.toList
    | .grammar _ _ _ _, none => [])

/-- **The answer to some arguments**, given the standard input and the files that can be read. -/
def run (arguments : List String) (stdin : String) (file : String → Option String) : Outcome :=
  match Invocation.ofArguments arguments with
  | .error i => i.outcome
  | .ok i =>
    i.outcome (match i.command.source with
      | .nothing => none
      | .standardInput => some stdin
      | .file path => file path)

end FormalLang.CommandLine
