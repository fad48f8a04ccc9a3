import Caret.Command.Target

/-! # Arguments of the program -/

namespace Caret.Command

/-- A question about a file. A position is looked up by its offset if one is given. -/
inductive Request where
  | inspect (location : String) (json : Bool)
  | position (target : String) (offset : Option Nat) (json : Bool)
deriving DecidableEq, Repr

/-- The arguments of a subcommand: its values in order, and how often the option
`--json` stands among them. -/
structure Arguments where
  values : List String
  jsonCount : Nat
deriving DecidableEq, Repr

namespace Arguments

/-- Sort out the arguments. After `--` there are only values. A dash alone is a
value, and no other text that starts with a dash is one. -/
def sort? : List String → Option Arguments
  | [] => some ⟨[], 0⟩
  | argument :: rest =>
      if argument = "--" then
        some ⟨rest, 0⟩
      else if argument = "--json" then
        (sort? rest).map fun sorted => { sorted with jsonCount := sorted.jsonCount + 1 }
      else if argument.startsWith "-" && argument ≠ "-" then
        none
      else
        (sort? rest).map fun sorted => { sorted with values := argument :: sorted.values }

end Arguments

/-- An offset of 64 bits, in front of which there may be a plus sign. -/
def offset? (text : String) : Option Nat :=
  match text.toList with
  | '+' :: digits => Text.decimal? digits
  | digits => Text.decimal? digits

namespace Request

/-- The request of a subcommand with its arguments sorted out. -/
def ofSubcommand? (name : String) (arguments : Arguments) : Option Request :=
  if 1 < arguments.jsonCount then
    none
  else
    let json := arguments.jsonCount = 1
    match name, arguments.values with
    | "inspect", [location] => some (.inspect location json)
    | "position", [target] => some (.position target none json)
    | "position", [target, offset] =>
        (offset? offset).map fun offset => .position target (some offset) json
    | _, _ => none

/-- Whether the arguments of a subcommand are no mistake so far. Its first value may be
missing. -/
def begins (name : String) (arguments : Arguments) : Bool :=
  (arguments.values.isEmpty && arguments.jsonCount ≤ 1) || (ofSubcommand? name arguments).isSome

/-- The file that a request is about, if its target can be read. -/
def path? : Request → Option String
  | inspect location _ => (Target.parse location).toOption.map (·.path)
  | position target (some _) _ => some target
  | position target none _ => (Target.parse target).toOption.map (·.path)

end Request

/-- A page of the help, about the program or one of its subcommands. -/
inductive HelpPage where
  | program
  | inspect
  | position
  | help
deriving DecidableEq, Repr

namespace HelpPage

def ofSubcommand? : String → Option HelpPage
  | "inspect" => some inspect
  | "position" => some position
  | "help" => some help
  | _ => none

/-- The page that the subcommand for help shows. -/
def ofValues? : List String → Option HelpPage
  | [] => some program
  | [name] => ofSubcommand? name
  | _ => none

def lines : HelpPage → List String
  | program => [
      "Cursor-position analysis for Ruby source",
      "",
      "Usage: rbcursor <COMMAND>",
      "",
      "Commands:",
      "  inspect   Show everything derived at a cursor position",
      "  position  Convert an offset to line:column, or path:line:column to an offset",
      "  help      Print this message or the help of the given subcommand(s)",
      "",
      "Options:",
      "  -h, --help     Print help",
      "  -V, --version  Print version"]
  | inspect => [
      "Show everything derived at a cursor position",
      "",
      "Usage: rbcursor inspect [OPTIONS] <LOCATION>",
      "",
      "Arguments:",
      "  <LOCATION>  Cursor as path:line:column, 1-based",
      "",
      "Options:",
      "      --json  Print JSON instead of text",
      "  -h, --help  Print help"]
  | position => [
      "Convert an offset to line:column, or path:line:column to an offset",
      "",
      "Usage: rbcursor position [OPTIONS] <TARGET> [OFFSET]",
      "",
      "Arguments:",
      "  <TARGET>  A file path (with OFFSET) or path:line:column",
      "  [OFFSET]  Zero-based character offset",
      "",
      "Options:",
      "      --json  Print JSON instead of text",
      "  -h, --help  Print help"]
  | help => [
      "Print this message or the help of the given subcommand(s)",
      "",
      "Usage: rbcursor help [COMMAND]...",
      "",
      "Arguments:",
      "  [COMMAND]...  Print help for the subcommand(s)"]

def text (page : HelpPage) : String :=
  String.join (page.lines.map (· ++ "\n"))

end HelpPage

/-- What the program is asked to do. -/
inductive Invocation where
  | version
  | help (page : HelpPage)
  | answer (request : Request)
deriving DecidableEq, Repr

namespace Invocation

/-- Whether an argument asks for the version. What is written together with the
short option or comes after it no longer matters. -/
def asksVersion (argument : String) : Bool :=
  argument = "--version" || argument.startsWith "-V"

/-- Whether an argument asks for help. It too ends the reading of arguments. -/
def asksHelp (argument : String) : Bool :=
  argument = "--help" || argument.startsWith "-h"

/-- The arguments in front of the first one that asks for help. After `--` none does. -/
def beforeHelp? : List String → Option (List String)
  | [] => none
  | argument :: rest =>
      if argument = "--" then none
      else if asksHelp argument then some []
      else (beforeHelp? rest).map (argument :: ·)

/-- Read the arguments of the program. Help for a subcommand is shown unless there is a
mistake in front of the argument that asks for it. -/
def parse? : List String → Option Invocation
  | [] => none
  | name :: rest =>
      if asksVersion name then
        some .version
      else if asksHelp name then
        some (.help .program)
      else if name = "help" then
        (HelpPage.ofValues? rest).map .help
      else
        match beforeHelp? rest with
        | some front => do
            let arguments ← Arguments.sort? front
            if Request.begins name arguments then (HelpPage.ofSubcommand? name).map .help else none
        | none => do
            let arguments ← Arguments.sort? rest
            return .answer (← Request.ofSubcommand? name arguments)

end Invocation

end Caret.Command
