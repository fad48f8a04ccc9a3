/-! # Values of a settings document

Tables can be written in several ways, and a table that was written in one way
cannot be reopened in another.
-/

namespace Caret.Toml

/-- How a table came to be: between braces, by a dotted key, by a header of its
own, or by the header of a table inside it. -/
inductive Origin where
  | braces
  | dotted
  | header
  | implied
deriving DecidableEq, Repr

/-- The values that a settings document can use. An array that has items is none
of them. -/
inductive Value where
  | string (text : String)
  | integer (number : Int)
  | emptyArray
  | table (origin : Origin) (entries : List (String × Value))

/-- The keys of a table with their values. -/
abbrev Entries := List (String × Value)

namespace Entries

/-- The entries with another value under a key. -/
def replace (entries : Entries) (key : String) (value : Value) : Entries :=
  entries.map fun entry => if entry.1 = key then (key, value) else entry

/-- Set the value under a path of keys. Tables on the way are created, and only
tables that were created so can be extended. No value is overwritten. -/
def assign (value : Value) : List String → Entries → Option Entries
  | [], _ => none
  | [key], entries =>
      if (entries.lookup key).isSome then none else some (entries ++ [(key, value)])
  | key :: next :: rest, entries =>
      match entries.lookup key with
      | none => do
          let inner ← assign value (next :: rest) []
          return entries ++ [(key, .table .dotted inner)]
      | some (.table .dotted inner) => do
          let inner ← assign value (next :: rest) inner
          return entries.replace key (.table .dotted inner)
      | some _ => none

/-- Create the table of a header. It may exist already if only headers of tables
inside it have named it. -/
def openTable : List String → Entries → Option Entries
  | [], _ => none
  | [key], entries =>
      match entries.lookup key with
      | none => some (entries ++ [(key, .table .header [])])
      | some (.table .implied inner) => some (entries.replace key (.table .header inner))
      | some _ => none
  | key :: next :: rest, entries =>
      match entries.lookup key with
      | none => do
          let inner ← openTable (next :: rest) []
          return entries ++ [(key, .table .implied inner)]
      | some (.table .braces _) => none
      | some (.table origin inner) => do
          let inner ← openTable (next :: rest) inner
          return entries.replace key (.table origin inner)
      | some _ => none

/-- Change the entries of the table under a path of keys. -/
def within (change : Entries → Option Entries) : List String → Entries → Option Entries
  | [], entries => change entries
  | key :: rest, entries =>
      match entries.lookup key with
      | some (.table origin inner) => do
          let inner ← within change rest inner
          return entries.replace key (.table origin inner)
      | _ => none

end Entries

end Caret.Toml
