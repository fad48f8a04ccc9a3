import Caret.Failure
import Caret.Report.Conversion
import Caret.Toml.Document

/-! # Settings -/

namespace Caret

open Report

/-- What a settings file can set. Files of more bytes than the limit are refused. -/
structure Settings where
  format : Format
  logLevel : Option String
  maxFileSize : Nat
deriving DecidableEq, Repr

namespace Settings

/-- The settings where there is no settings file. -/
def default : Settings :=
  ⟨.text, none, 16 * 1024 * 1024⟩

def fileName : String :=
  ".rbcursor.toml"

/-- Why a settings file is refused. -/
inductive Fault where
  | malformed
  | conflictingKeys
  | unknownKey (key : String)
  | unusableValue (key : String)
deriving DecidableEq, Repr

def Fault.message : Fault → String
  | malformed => "the text is not a settings document"
  | conflictingKeys => "a key is set twice"
  | unknownKey key => s!"unknown key: {key}"
  | unusableValue key => s!"unusable value for key: {key}"

def formatNamed? : String → Option Format
  | "json" => some .json
  | "text" => some .text
  | _ => none

/-- A format is given by its name, or by a table with its name as the only key and
nothing under it. -/
def format? : Toml.Value → Option Format
  | .string name => formatNamed? name
  | .table _ [(name, .table _ [])] => formatNamed? name
  | .table _ [(name, .emptyArray)] => formatNamed? name
  | _ => none

def logLevel? : Toml.Value → Option String
  | .string level => some level
  | _ => none

def maxFileSize? : Toml.Value → Option Nat
  | .integer size => if 0 ≤ size then some size.toNat else none
  | _ => none

/-- Settings with one key set. -/
def set (settings : Settings) (key : String) (value : Toml.Value) : Except Fault Settings :=
  let take {α : Type} (found : Option α) (update : α → Settings) : Except Fault Settings :=
    match found with
    | some value => .ok (update value)
    | none => .error (.unusableValue key)
  match key with
  | "format" => take (format? value) fun format => { settings with format }
  | "log_level" => take (logLevel? value) fun level => { settings with logLevel := some level }
  | "max_file_size" => take (maxFileSize? value) fun size => { settings with maxFileSize := size }
  | _ => .error (.unknownKey key)

/-- The settings in a document. -/
def ofDocument (text : String) : Except Fault Settings :=
  match Toml.statements? text with
  | none => .error .malformed
  | some statements =>
      match Toml.entriesOf [] [] statements with
      | none => .error .conflictingKeys
      | some entries => entries.foldlM (fun settings (key, value) => settings.set key value) default

def parse (text : String) : Except Failure Settings :=
  (ofDocument text).mapError fun fault => .toml fault.message

end Settings

end Caret
