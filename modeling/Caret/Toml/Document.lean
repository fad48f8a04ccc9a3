import Caret.Toml.Scalar
import Caret.Toml.Value

/-! # Settings documents

The reader knows the part of TOML that a settings file can make use of. Other
kinds of values are refused, as no setting takes them.
-/

namespace Caret.Toml

/-- A reader takes something off the front of a text. -/
abbrev Reader (α : Type) := List Char → Option (α × List Char)

/-- Read items for as long as there are any and each of them takes something off
the text. -/
def repeated {α : Type} (item : Reader α) (input : List Char) : List α × List Char :=
  match item input with
  | none => ([], input)
  | some (value, rest) =>
      if rest.length < input.length then
        let (values, rest) := repeated item rest
        (value :: values, rest)
      else
        ([], input)
termination_by input.length

def skipBlanks (input : List Char) : List Char :=
  input.dropWhile isBlank

def skipComment : List Char → List Char
  | '#' :: rest => rest.dropWhile isPlain
  | input => input

/-- The text after the end of a line, before which there may be a comment. -/
def lineEnd? (input : List Char) : Option (List Char) :=
  match skipComment (skipBlanks input) with
  | [] => some []
  | rest => newline? rest

/-- The text after an expected character and the blanks around it. -/
def symbol? (c : Char) (input : List Char) : Option (List Char) :=
  match skipBlanks input with
  | first :: rest => if first = c then some (skipBlanks rest) else none
  | [] => none

def isBareKeyChar (c : Char) : Bool :=
  c.isAlphanum || c = '_' || c = '-'

def key? : Reader String
  | '"' :: rest => (basic? rest).map fun (content, rest) => (String.ofList content, rest)
  | '\'' :: rest => (literal? rest).map fun (content, rest) => (String.ofList content, rest)
  | input =>
      let bare := input.takeWhile isBareKeyChar
      if bare.isEmpty then none else some (String.ofList bare, input.drop bare.length)

/-- Keys with dots between them. -/
def keyPath? : Reader (List String) := fun input => do
  let (first, rest) ← key? input
  let (more, rest) := repeated (fun input => (symbol? '.' input).bind key?) rest
  return (first :: more, rest)

/-- Text up to the next character that can end a number. -/
def integerValue? : Reader Value := fun input =>
  let token := input.takeWhile fun c => c.isAlphanum || c = '_' || c = '+' || c = '-'
  (integer? token).map fun number => (.integer number, input.drop token.length)

/-- Blanks, comments and line ends, one at a time. -/
def trivia? : Reader Unit := fun input =>
  match newline? input with
  | some rest => some ((), rest)
  | none => some ((), skipComment (skipBlanks input))

/-- A value that holds no other values. -/
def plainValue? : Reader Value
  | '"' :: '"' :: '"' :: rest =>
      (multilineBasic? false (skipNewline rest)).map fun (content, rest) =>
        (.string (String.ofList content), rest)
  | '"' :: rest => (basic? rest).map fun (content, rest) => (.string (String.ofList content), rest)
  | '\'' :: '\'' :: '\'' :: rest =>
      (multilineLiteral? (skipNewline rest)).map fun (content, rest) =>
        (.string (String.ofList content), rest)
  | '\'' :: rest =>
      (literal? rest).map fun (content, rest) => (.string (String.ofList content), rest)
  | '[' :: rest =>
      match (repeated trivia? rest).2 with
      | ']' :: rest => some (.emptyArray, rest)
      | _ => none
  | input => integerValue? input

/-- A key and its value, with an equals sign between them. -/
def pair? (value? : Reader Value) : Reader (List String × Value) := fun input => do
  let (path, rest) ← keyPath? (skipBlanks input)
  let rest ← symbol? '=' rest
  let (value, rest) ← value? rest
  return ((path, value), rest)

/-- The pairs of a table in braces, after the opening one. -/
def pairs? (value? : Reader Value) : Reader (List (List String × Value)) := fun input =>
  match symbol? '\x7d' input with
  | some _ => some ([], input)
  | none => do
      let (first, rest) ← pair? value? input
      let (more, rest) := repeated (fun input => (symbol? ',' input).bind (pair? value?)) rest
      return (first :: more, rest)

/-- A value. Tables in braces may hold others to the given depth. -/
def value? : Nat → Reader Value
  | depth + 1, '\x7b' :: rest => do
      let (pairs, rest) ← pairs? (value? depth) rest
      let entries ← pairs.foldlM (fun entries (path, value) => Entries.assign value path entries) []
      match skipBlanks rest with
      | '\x7d' :: rest => some (.table .braces entries, rest)
      | _ => none
  | _, input => plainValue? input

/-- How deep tables in braces can be nested. -/
def nestingLimit : Nat :=
  80

inductive Statement where
  | blank
  | header (path : List String)
  | assignment (path : List String) (value : Value)

/-- One line of a document, or several if it holds a string of several lines. -/
def statement? : Reader Statement := fun input =>
  match skipBlanks input with
  | '[' :: rest => do
      let (path, rest) ← keyPath? (skipBlanks rest)
      let rest ← symbol? ']' rest
      return (.header path, ← lineEnd? rest)
  | rest =>
      match lineEnd? rest with
      | some rest => some (.blank, rest)
      | none => do
          let ((path, value), rest) ← pair? (value? nestingLimit) rest
          return (.assignment path value, ← lineEnd? rest)

/-- The statements of a document, in front of which there may be a byte order
mark. -/
def statements? (text : String) : Option (List Statement) :=
  let input := match text.toList with
    | '\ufeff' :: rest => rest
    | input => input
  match repeated statement? input with
  | (statements, []) => some statements
  | _ => none

/-- The entries that statements make. Assignments belong to the table of the last
header before them. -/
def entriesOf (header : List String) (entries : Entries) : List Statement → Option Entries
  | [] => some entries
  | .blank :: rest => entriesOf header entries rest
  | .header path :: rest => do
      entriesOf path (← entries.openTable path) rest
  | .assignment path value :: rest => do
      entriesOf header (← entries.within (Entries.assign value path) header) rest

end Caret.Toml
