import Caret.Command.Arguments
import Caret.Diagnostic
import Caret.Language
import Caret.Log
import Caret.Report.Conversion
import Caret.Report.Inspection
import Caret.Settings
import Caret.Workspace

/-! # Running a request

A run reads the settings and at most one source file. Its outcome is a value: what
it prints, and the events that it logged on the way.
-/

namespace Caret.Command

open Log Report

/-- What a run can reach: files by their paths, and the parser. -/
structure Environment where
  find : String → Found
  parse : String → Syntax.Parsed

/-- A step of a run logs events and may fail. The events before a failure stay. -/
abbrev Task (α : Type) := ExceptT Failure (StateM (List Event)) α

namespace Task

def log (event : Event) : Task Unit :=
  modify (· ++ [event])

/-- The result of a task and the events it logged. -/
def outcome {α : Type} (task : Task α) : Except Failure α × List Event :=
  (ExceptT.run task).run []

end Task

/-- Read a file that is expected to hold text. -/
def readText (path : String) : Found → Except Failure String
  | .missing => .error (.fileNotFound path)
  | .refused reason => .error (.io reason)
  | .directory _ => .error (.io "Is a directory (os error 21)")
  | .file content =>
      match String.fromUTF8? content with
      | some text => .ok text
      | none => .error (.io "stream did not contain valid UTF-8")

/-- The settings of a workspace. Without a settings file the defaults hold. -/
def loadSettings (environment : Environment) : Except Failure Settings :=
  match environment.find Settings.fileName with
  | .missing => .ok .default
  | found => do Settings.parse (← readText Settings.fileName found)

/-- Read and parse a source file. The name is checked first, then the size. -/
def loadBuffer (environment : Environment) (settings : Settings) (path : String) :
    Task Buffer := do
  let _ ← ExceptT.mk (pure (Language.ofPath path))
  let found := environment.find path
  if let some size := found.size? then
    if settings.maxFileSize < size then
      throw (.fileTooLarge path size settings.maxFileSize)
  let text ← ExceptT.mk (pure (readText path found))
  Task.log (loadedSource path text.utf8ByteSize)
  let buffer := Buffer.ofParsed text (environment.parse text)
  Task.log (mappedSymbols buffer.symbols.locals.length buffer.symbols.methods.length)
  if buffer.hasError then
    Task.log (sourceHasErrors buffer.comments.size)
    Task.log (bestEffort path)
  return buffer

/-- The events of following the receiver of a cursor's signature. -/
def trailEvents (trail : Symbols.Trail) : List Event :=
  trail.steps.map (fun step => followedLocal step.name step.target) ++
    (trail.repeated.map localCycle).toList

/-- The report on the cursor at a location. -/
def inspect (environment : Environment) (settings : Settings) (location : String) :
    Task Inspection := do
  let target ← ExceptT.mk (pure (Target.parse location))
  let buffer ← loadBuffer environment settings target.path
  let cursor ← ExceptT.mk (pure (buffer.cursorAtPosition target.position))
  if let some trail := cursor.receiverTrail then
    modify (· ++ trailEvents trail)
  return .ofCursor cursor

/-- The position of an offset in the file at a path. -/
def positionOfOffset (environment : Environment) (settings : Settings) (path : String)
    (offset : Nat) : Task Conversion := do
  let buffer ← loadBuffer environment settings path
  let position ← ExceptT.mk (pure (buffer.index.positionOf offset))
  return ⟨.ofPosition position, offset⟩

/-- The offset of a location. -/
def offsetOfLocation (environment : Environment) (settings : Settings) (location : String) :
    Task Conversion := do
  let target ← ExceptT.mk (pure (Target.parse location))
  let buffer ← loadBuffer environment settings target.path
  let offset ← ExceptT.mk (pure (buffer.index.offsetOf target.position))
  return ⟨.ofPosition target.position, offset⟩

/-- The option `--json` takes precedence over the settings. -/
def formatFor (json : Bool) (settings : Settings) : Format :=
  if json then .json else settings.format

/-- What a request prints. -/
def answer (environment : Environment) (settings : Settings) : Request → Task String
  | .inspect location json => do
      return (← inspect environment settings location).render (formatFor json settings)
  | .position target (some offset) json => do
      return (← positionOfOffset environment settings target offset).render
        (formatFor json settings)
  | .position target none json => do
      return (← offsetOfLocation environment settings target).render (formatFor json settings)

/-- How a run ends. The events are those that the settings let through. -/
inductive Outcome where
  | misused
  | done (events : List Event) (output : String)
  | failed (events : List Event) (failure : Failure)

/-- Run the program with its arguments. Nothing is read for the version, for help or if
the arguments cannot be used. -/
def run (environment : Environment) (arguments : List String) : Outcome :=
  match Invocation.parse? arguments with
  | none => .misused
  | some .version => .done [] "rbcursor 0.1.0\n"
  | some (.help page) => .done [] page.text
  | some (.answer request) =>
      match loadSettings environment with
      | .error failure => .failed [] failure
      | .ok settings =>
          let threshold := Threshold.ofConfigured settings.logLevel
          let (result, events) := (answer environment settings request).outcome
          let events := events.filter fun event => threshold.shows event.level
          match result with
          | .ok output => .done events output
          | .error failure => .failed events failure

namespace Outcome

def exitCode : Outcome → Nat
  | misused => 2
  | done .. => 0
  | failed .. => 1

def standardOutput : Outcome → String
  | misused => ""
  | done _ output => output
  | failed .. => ""

/-- The lines of a text. A carriage return before a line feed belongs to the line
end. -/
def lines (text : String) : List String :=
  let pieces := (text.toList.splitOn '\n').map fun line =>
    String.ofList (if line.getLast? = some '\r' then line.dropLast else line)
  if pieces.getLast? = some "" then pieces.dropLast else pieces

/-- Headings are shown in bold. -/
def emphasize (line : String) : String :=
  if line.startsWith "#" then "\x1b[1m" ++ line ++ "\x1b[0m" else line

/-- The lines on the error stream: the events, and after them the diagnostic of a
failure. -/
def errorLines : Outcome → List String
  | misused => ["usage: rbcursor inspect [--json] <location>",
      "       rbcursor position [--json] <target> [offset]"]
  | done events _ => events.map Event.text
  | failed events failure => events.map Event.text ++ (lines failure.markdown).map emphasize

end Outcome

end Caret.Command
