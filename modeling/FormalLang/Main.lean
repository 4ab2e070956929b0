import FormalLang.CommandLine.Outcome

/-!
# The program

The outer layer: it reads the source that the arguments name, and writes the answer.
-/

namespace FormalLang.CommandLine

/-- Everything that can be read from a stream. -/
def readAll (stream : IO.FS.Stream) : IO String := do
  let mut bytes := ByteArray.empty
  let mut chunk ← stream.read 65536
  while !chunk.isEmpty do
    bytes := bytes ++ chunk
    chunk ← stream.read 65536
  match String.fromUTF8? bytes with
  | some text => pure text
  | none => throw (IO.userError "stream did not contain valid UTF-8")

/-- The contents of a source, if it can be read. -/
def Source.read : Source → IO (Option String)
  | .nothing => pure none
  | .standardInput => do
    try
      let text ← readAll (← IO.getStdin)
      pure (some text)
    catch _ => pure none
  | .file path => do
    try
      let text ← IO.FS.readFile path
      pure (some text)
    catch _ => pure none

/-- Writes an answer: the complaint, if there is one, and the text, and gives the exit code. -/
def Outcome.write (o : Outcome) : IO UInt32 := do
  IO.print o.stdout
  (← IO.getStdout).flush
  o.complaint.forM fun line => IO.eprintln line
  pure o.exit.toUInt32

/-- Answers an invocation, and tells its journal first. -/
def Invocation.answer (i : Invocation) : IO UInt32 := do
  let content ← i.command.source.read
  (i.journal content).forM fun r => IO.eprintln r.render
  (i.outcome content).write

end FormalLang.CommandLine

/-- Answers the arguments and exits with the code of the answer. -/
def main (arguments : List String) : IO UInt32 :=
  match FormalLang.CommandLine.Invocation.ofArguments arguments with
  | .error i => i.outcome.write
  | .ok i => i.answer
