import Caret.Json
import Caret.Text.Position

/-! # Locations in reports

Reports count lines and columns from one. The smallest report is that of an offset
and its location.
-/

namespace Caret.Report

inductive Format where
  | json
  | text
deriving DecidableEq, Repr

def Format.name : Format → String
  | json => "json"
  | text => "text"

/-- Counts have 64 bits and stay at their largest value. -/
def countFromOne (n : Nat) : Nat :=
  min (n + 1) (UInt64.size - 1)

structure Location where
  column : Nat
  line : Nat
deriving DecidableEq, Repr

namespace Location

def ofPosition (position : Text.Position) : Location :=
  ⟨countFromOne position.column, countFromOne position.line⟩

def text (location : Location) : String :=
  toString location.line ++ ":" ++ toString location.column

def json (location : Location) : Json :=
  .object [("column", .number location.column), ("line", .number location.line)]

end Location

/-- The locations of the two ends of a piece of text. -/
structure LocationRange where
  start : Location
  stop : Location
deriving DecidableEq, Repr

namespace LocationRange

def ofRegion (region : Text.Region) : LocationRange :=
  ⟨.ofPosition region.start, .ofPosition region.stop⟩

def text (range : LocationRange) : String :=
  range.start.text ++ "-" ++ range.stop.text

def json (range : LocationRange) : Json :=
  .object [("start", range.start.json), ("end", range.stop.json)]

end LocationRange

/-- An offset and the location it has. -/
structure Conversion where
  location : Location
  offset : Nat
deriving DecidableEq, Repr

namespace Conversion

def render (conversion : Conversion) : Format → String
  | .json =>
      (Json.object [("location", conversion.location.json),
        ("offset", .number conversion.offset)]).render
  | .text => "offset " ++ toString conversion.offset ++ " = " ++ conversion.location.text ++ "\n"

end Conversion

end Caret.Report
