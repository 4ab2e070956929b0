import FormalLang.Predictive.Analysis
import FormalLang.Regex.Error
import FormalLang.Text.Blank

/-!
# Diagnostics

A diagnostic tells a user what is wrong, with a code, perhaps a hint, and perhaps the part of a
source that is meant.  Parts of a source are counted in bytes of its UTF-8 form.
-/

namespace FormalLang

/-- A marked part of a source. -/
structure SourceLabel where
  text : String
  offset : Nat
  length : Nat
  deriving DecidableEq

/-- **What a user is told.** -/
structure Diagnostic where
  message : String
  code : String
  help : Option String
  /-- The name of the source. -/
  source : Option String
  label : Option SourceLabel
  deriving DecidableEq

namespace Diagnostic

/-! ## 1. Parts of a source -/

/-- The offset and length of the character at a position; behind the end there is nothing left. -/
def charSpan (cs : List Char) (position : Nat) : Nat × Nat :=
  match cs[position]? with
  | some c => (Text.byteLength (cs.take position), c.utf8Size)
  | none => (Text.byteLength cs, 0)

/-- The lines of a source; a line break at the end begins no further line. -/
def sourceLines (cs : List Char) : List (List Char) :=
  let pieces := Text.lines cs
  if pieces.getLast? = some [] then pieces.dropLast else pieces

/-- The offset and length of a line counted from one, without the white space at its end. -/
def lineSpan? (cs : List Char) : Nat → Option (Nat × Nat)
  | 0 => none
  | n + 1 =>
    let pieces := sourceLines cs
    pieces[n]?.map fun piece =>
      (Text.byteLength ((pieces.take n).flatMap fun p => p ++ ['\n']),
        Text.byteLength (Text.trimEnd piece))

/-! ## 2. The diagnostics -/

/-- The diagnostic of an error in the text of an expression. -/
def ofRegexError (cs : List Char) (e : RegexError) : Diagnostic where
  message := e.message
  code := "lingo::regex"
  help := some ("a regex uses alphanumeric symbols, `ε` and the operators " ++
    "`|`, `*`, `(` and `)`")
  source := some "regex"
  label := e.position?.map fun p => ⟨"here", (charSpan cs p).1, (charSpan cs p).2⟩

/-- The diagnostic of an error in a grammar. -/
def ofGrammarError (name : String) (cs : List Char) (e : GrammarError) : Diagnostic where
  message := e.message
  code := "lingo::grammar"
  help := some "rules are written as `A -> x B | ε`"
  source := some name
  label := (e.line?.bind (lineSpan? cs)).map fun span => ⟨"this line", span.1, span.2⟩

/-- The diagnostic of a grammar without table. -/
def ofTableError (e : TableError) : Diagnostic where
  message :=
    match e with
    | .conflict c => c.message
    | .fault f => f.message
  code := "lingo::ll1"
  help := none
  source := none
  label := none

/-- The diagnostic of a grammar that has no analysis. -/
def ofAnalysisError (name : String) (cs : List Char) : AnalysisError → Diagnostic
  | .grammar e => ofGrammarError name cs e
  | .table e => ofTableError e

/-- The diagnostic of a rejected input. -/
def ofRejection (e : ParseError) : Diagnostic where
  message := "input rejected: " ++ e.message
  code := "lingo::parse"
  help := none
  source := none
  label := none

/-- The diagnostic of a file that cannot be read. -/
def ofUnreadable (path : String) : Diagnostic where
  message := "cannot read `" ++ path ++ "`"
  code := "lingo::io"
  help := none
  source := none
  label := none

end Diagnostic

end FormalLang
