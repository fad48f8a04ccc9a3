import Caret.Cursor.Calculation
import Caret.Report.Conversion

/-! # Reports on a cursor -/

namespace Caret.Report

open Symbols

/-- Something that can be true of a cursor. -/
inductive Flag where
  | argument
  | broken
  | chained
  | comment
  | string
deriving DecidableEq, Repr

def Flag.name : Flag → String
  | argument => "argument"
  | broken => "broken"
  | chained => "chained"
  | comment => "comment"
  | string => "string"

/-- A local variable, where it is assigned and what its value is. -/
structure LocalReport where
  location : Location
  name : String
  signature : Option String
deriving DecidableEq, Repr

/-- All facts about one cursor. -/
structure Inspection where
  base : String
  baseChain : String
  calculatedBase : String
  calculatedSignature : String
  calculatedWholeSignature : String
  chain : String
  flags : List Flag
  locals : List LocalReport
  location : Location
  namespacePath : Option String
  offset : Nat
  phrase : String
  recipient : Option String
  remainder : String
  root : String
  scope : Scope
  signature : String
  wholeChain : String
  wholeSignature : String
  wholeWord : String
  wholeWordRange : LocationRange
  word : String
  wordRange : LocationRange
deriving DecidableEq, Repr

namespace LocalReport

def ofLocal (assigned : Local) : LocalReport :=
  ⟨.ofPosition assigned.region.start, assigned.name, assigned.signature⟩

def json (report : LocalReport) : Json :=
  .object [("location", report.location.json), ("name", .string report.name),
    ("signature", .ofText? report.signature)]

def text (report : LocalReport) : String :=
  "  " ++ report.name ++ " = " ++ (report.signature.map Text.quoted).getD "?" ++ "  (" ++
    report.location.text ++ ")\n"

end LocalReport

namespace Inspection

/-- The flags that hold for a cursor, in alphabetical order. -/
def flagsOf (cursor : Cursor) : List Flag :=
  [(Flag.argument, cursor.isArgument), (.broken, !cursor.isValid), (.chained, cursor.isChained),
    (.comment, cursor.isComment), (.string, cursor.isString)].filterMap fun (flag, holds) =>
      if holds then some flag else none

def ofCursor (cursor : Cursor) : Inspection where
  base := cursor.base
  baseChain := cursor.baseChain
  calculatedBase := cursor.calculatedBase
  calculatedSignature := cursor.calculatedSignature
  calculatedWholeSignature := cursor.calculatedWholeSignature
  chain := cursor.chain
  flags := flagsOf cursor
  locals := cursor.locals.map .ofLocal
  location := .ofPosition cursor.position
  namespacePath := cursor.namespacePath
  offset := cursor.offset
  phrase := cursor.phrase
  recipient := cursor.recipient.map (·.signature)
  remainder := cursor.remainder
  root := cursor.root
  scope := cursor.scope
  signature := cursor.signature
  wholeChain := cursor.wholeChain
  wholeSignature := cursor.wholeSignature
  wholeWord := cursor.wholeWord
  wholeWordRange := .ofRegion cursor.wholeWordRange
  word := cursor.word
  wordRange := .ofRegion cursor.wordRange

def json (report : Inspection) : Json :=
  .object [
    ("base", .string report.base),
    ("base_chain", .string report.baseChain),
    ("calculated_base", .string report.calculatedBase),
    ("calculated_signature", .string report.calculatedSignature),
    ("calculated_whole_signature", .string report.calculatedWholeSignature),
    ("chain", .string report.chain),
    ("flags", .array (report.flags.map fun flag => .string flag.name)),
    ("locals", .array (report.locals.map LocalReport.json)),
    ("location", report.location.json),
    ("namespace", .ofText? report.namespacePath),
    ("offset", .number report.offset),
    ("phrase", .string report.phrase),
    ("recipient", .ofText? report.recipient),
    ("remainder", .string report.remainder),
    ("root", .string report.root),
    ("scope", .string report.scope.name),
    ("signature", .string report.signature),
    ("whole_chain", .string report.wholeChain),
    ("whole_signature", .string report.wholeSignature),
    ("whole_word", .string report.wholeWord),
    ("whole_word_range", report.wholeWordRange.json),
    ("word", .string report.word),
    ("word_range", report.wordRange.json)]

/-- A quoted text, or a dash where there is none. -/
def quotedOrDash (text : Option String) : String :=
  (text.map Text.quoted).getD "-"

/-- The facts in the order in which they are shown. Texts are quoted so that
empty ones can be seen. -/
def rows (report : Inspection) : List (String × String) :=
  let flags := " ".intercalate (report.flags.map Flag.name)
  [ ("location", report.location.text),
    ("offset", toString report.offset),
    ("signature", Text.quoted report.signature),
    ("whole_signature", Text.quoted report.wholeSignature),
    ("base", Text.quoted report.base),
    ("root", Text.quoted report.root),
    ("chain", Text.quoted report.chain),
    ("base_chain", Text.quoted report.baseChain),
    ("whole_chain", Text.quoted report.wholeChain),
    ("phrase", Text.quoted report.phrase),
    ("word", Text.quoted report.word),
    ("remainder", Text.quoted report.remainder),
    ("whole_word", Text.quoted report.wholeWord),
    ("word_range", report.wordRange.text),
    ("whole_word_range", report.wholeWordRange.text),
    ("namespace", quotedOrDash report.namespacePath),
    ("scope", report.scope.name),
    ("calculated", Text.quoted report.calculatedSignature),
    ("calculated_whole", Text.quoted report.calculatedWholeSignature),
    ("calculated_base", Text.quoted report.calculatedBase),
    ("recipient", quotedOrDash report.recipient),
    ("flags", if report.flags.isEmpty then "-" else flags) ]

/-- The width of the longest key. -/
def keyWidth (rows : List (String × String)) : Nat :=
  (rows.map (·.1.length)).foldr max 0

def rowText (width : Nat) (row : String × String) : String :=
  row.1 ++ String.ofList (List.replicate (width - row.1.length) ' ') ++ "  " ++ row.2 ++ "\n"

/-- The report in two columns, followed by the local variables if there are any. -/
def text (report : Inspection) : String :=
  let rows := report.rows
  let table := String.join (rows.map (rowText (keyWidth rows)))
  if report.locals.isEmpty then table
  else table ++ "\nlocals:\n" ++ String.join (report.locals.map LocalReport.text)

def render (report : Inspection) : Format → String
  | .json => report.json.render
  | .text => report.text

end Inspection

end Caret.Report
