import Caret.Text.Character
import Caret.Text.Quoted

/-! # Log events

Events are kept in the order in which they occur. The configured level decides
which of them are shown.
-/

namespace Caret.Log

inductive Level where
  | error
  | warn
  | info
  | debug
  | trace
deriving DecidableEq, Repr

namespace Level

def name : Level → String
  | error => "ERROR"
  | warn => "WARN"
  | info => "INFO"
  | debug => "DEBUG"
  | trace => "TRACE"

/-- How much is shown at a level. -/
def rank : Level → Nat
  | error => 1
  | warn => 2
  | info => 3
  | debug => 4
  | trace => 5

/-- The level of a rank. -/
def ofRank? : Nat → Option Level
  | 1 => some error
  | 2 => some warn
  | 3 => some info
  | 4 => some debug
  | 5 => some trace
  | _ => none

theorem ofRank?_rank (level : Level) : ofRank? level.rank = some level := by
  cases level <;> rfl

end Level

/-- The events that are shown: none, or those at a level and at the graver ones. -/
inductive Threshold where
  | off
  | upTo (level : Level)
deriving DecidableEq, Repr

namespace Threshold

/-- The threshold at the level of some rank. At rank zero nothing is shown. -/
def ofRank? : Nat → Option Threshold
  | 0 => some off
  | rank => (Level.ofRank? rank).map upTo

/-- A threshold is named by a level, in letters of either case, or by its rank. -/
def named? (name : String) : Option Threshold :=
  match Text.decimal? name.toList with
  | some rank => ofRank? rank
  | none =>
      match name.toLower with
      | "off" => some off
      | "error" => some (upTo .error)
      | "warn" => some (upTo .warn)
      | "info" => some (upTo .info)
      | "debug" => some (upTo .debug)
      | "trace" => some (upTo .trace)
      | _ => none

/-- Warnings are shown unless a known threshold is configured. -/
def ofConfigured (name : Option String) : Threshold :=
  (name.bind named?).getD (.upTo .warn)

def shows : Threshold → Level → Bool
  | off, _ => false
  | upTo limit, level => level.rank ≤ limit.rank

end Threshold

/-- Something worth telling, with named values. -/
structure Event where
  level : Level
  message : String
  fields : List (String × String)
deriving DecidableEq, Repr

namespace Event

/-- The event on one line. Levels are aligned on the right. -/
def text (event : Event) : String :=
  let level := event.level.name
  String.ofList (List.replicate (5 - level.length) ' ') ++ level ++ " " ++ event.message ++
    String.join (event.fields.map fun (name, value) => " " ++ name ++ "=" ++ value)

end Event

def loadedSource (path : String) (bytes : Nat) : Event :=
  ⟨.debug, "loaded source", [("path", path), ("bytes", toString bytes)]⟩

def mappedSymbols (locals methods : Nat) : Event :=
  ⟨.debug, "mapped pins", [("locals", toString locals), ("methods", toString methods)]⟩

def sourceHasErrors (comments : Nat) : Event :=
  ⟨.debug, "source has syntax errors", [("comments", toString comments)]⟩

def bestEffort (path : String) : Event :=
  ⟨.info, "file has syntax errors; results are best effort", [("path", path)]⟩

def followedLocal (name target : String) : Event :=
  ⟨.trace, "dereferenced local", [("from", name), ("to", Text.quoted target)]⟩

def localCycle (name : String) : Event :=
  ⟨.debug, "local variable cycle", [("name", name)]⟩

end Caret.Log
