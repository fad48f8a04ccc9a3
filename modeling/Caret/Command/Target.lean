import Caret.Failure
import Caret.Text.Character
import Caret.Text.Split
import Caret.Unicode.DecimalDigit

/-! # Targets of commands

A target is written `path:line:column`, with line and column counted from one.
The path may itself hold colons and digits.
-/

namespace Caret.Command

/-- A file and a position in it. -/
structure Target where
  path : String
  position : Text.Position
deriving DecidableEq, Repr

namespace Target

/-- Why a text is no target. -/
inductive Fault where
  | notThreeParts
  | notCountedFromOne
deriving DecidableEq, Repr

def Fault.reason : Fault → String
  | notThreeParts => "expected path:line:column"
  | notCountedFromOne => "line and column start at 1"

/-- The index that a count from one stands for. Only ASCII digits are read, and
counts have 64 bits. -/
def indexOfCount? (digits : List Char) : Option Nat :=
  match Text.decimal? digits with
  | some (index + 1) => some index
  | _ => none

/-- Whether some text is a number, in the digits of any script. -/
def isNumber (text : List Char) : Bool :=
  !text.isEmpty && text.all Unicode.isDecimalDigit

/-- Cut a text into the path, the line and the column. -/
def pieces? (input : List Char) : Option (List Char × List Char × List Char) := do
  let (front, column) ← Text.splitLast ':' input
  let (path, line) ← Text.splitLast ':' front
  if !path.isEmpty && !path.contains '\n' && isNumber line && isNumber column then
    some (path, line, column)
  else
    none

def read (input : String) : Except Fault Target :=
  match pieces? input.toList with
  | none => .error .notThreeParts
  | some (path, line, column) =>
      match indexOfCount? line, indexOfCount? column with
      | some line, some column => .ok ⟨String.ofList path, ⟨line, column⟩⟩
      | _, _ => .error .notCountedFromOne

def parse (input : String) : Except Failure Target :=
  (read input).mapError fun fault => .invalidLocation input fault.reason

end Target

end Caret.Command
