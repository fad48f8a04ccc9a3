import Caret.Command.Run
import Caret.Syntax.Rows

/-! # The program

The arguments name a file. The rows of its syntax tree are read from the standard
input, as the parser is a program of its own.
-/

namespace Caret.Command

/-- What a path leads to on the disk. Only a directory that was opened like a file
carries the code 21. -/
def lookUp (path : String) : IO Found := do
  try
    return .file (← IO.FS.readBinFile path)
  catch
    | .noFileOrDirectory .. => return .missing
    | .inappropriateType _ code _ =>
        return if code = 21 then .directory 0 else .notADirectory
    | error => return .refused error.toString

/-- Read lines without their line feeds until the input ends. -/
partial def readLines (input : IO.FS.Stream) (lines : Array String) : IO (List String) := do
  let line ← input.getLine
  if line.isEmpty then return lines.toList
  let line := if line.endsWith "\n" then (line.dropEnd 1).toString else line
  readLines input (lines.push line)

/-- The file that the arguments name, if they name one. -/
def sourcePath? (arguments : List String) : Option String := do
  match ← Invocation.parse? arguments with
  | .version | .help _ => none
  | .answer request => request.path?

end Caret.Command

open Caret Command

def main (arguments : List String) : IO UInt32 := do
  let source := sourcePath? arguments
  let found ← (Settings.fileName :: source.toList).mapM fun path => return (path, ← lookUp path)
  let parsed ← match source.bind fun path => found.lookup path with
    | some (.file _) =>
        pure ((Syntax.Parsed.ofLines? (← readLines (← IO.getStdin) #[])).getD .nothing)
    | _ => pure .nothing
  let environment : Environment :=
    ⟨fun path => (found.lookup path).getD .missing, fun _ => parsed⟩
  let outcome := run environment arguments
  for line in outcome.errorLines do
    IO.eprintln line
  IO.print outcome.standardOutput
  return outcome.exitCode.toUInt32
