import Caret.Cursor.Signature
import Caret.Symbols.Trail
import Caret.Syntax.Kind

/-! # The calculated signature

In a calculated signature the receiver is resolved. A literal stands for a call
of `new` on its class, and a local variable for what was assigned to it.
-/

namespace Caret.Cursor

open Text Syntax Symbols

/-- The local variables seen from the cursor, in source order. -/
def locals (cursor : Cursor) : List Local :=
  cursor.buffer.symbols.locals.filter (·.visibleFrom cursor.enclosure cursor.position)

/-- The trail of a name, seen from the cursor. -/
def trail (cursor : Cursor) (name : String) : Trail :=
  cursor.buffer.symbols.trail cursor.enclosure cursor.position name

/-- The trail of the receiver. There is none if the signature has no receiver or
if its receiver is a number. -/
def receiverTrail (cursor : Cursor) : Option Trail :=
  let receiver := cursor.scan.chars.takeWhile (· ≠ '.')
  if receiver.all Char.isDigit then none else some (cursor.trail (String.ofList receiver))

/-- The class of the literal that the named node at an offset is. -/
def literalClassAt (cursor : Cursor) (offset : Nat) : Option String :=
  (cursor.buffer.nodeAt offset).bind fun place => literalClass? place.tree.kind

/-- A signature that begins with a dot follows something that is no signature
itself, as a rule a literal. A subscript at the front follows an array. -/
def calculateAfterDot (cursor : Cursor) (signature : List Char) : String :=
  if ".[].".toList.isPrefixOf signature then
    "Array.new" ++ String.ofList (signature.drop 3)
  else
    let literal := match cursor.scan.anchor with
      | some (before + 1) => cursor.literalClassAt before
      | _ => none
    match literal with
    | some name => name ++ ".new" ++ String.ofList signature
    | none => String.ofList signature

/-- The signature with its receiver resolved. -/
def calculatedSignature (cursor : Cursor) : String :=
  match cursor.scan.chars with
  | [] => ""
  | '.' :: rest => cursor.calculateAfterDot ('.' :: rest)
  | chars =>
      let receiver := match cursor.receiverTrail with
        | some trail => trail.result
        | none => "Integer.new"
      receiver ++ String.ofList (chars.dropWhile (· ≠ '.'))

def calculatedWholeSignature (cursor : Cursor) : String :=
  cursor.calculatedSignature ++ cursor.remainder

/-- The calculated signature without its last segment. -/
def calculatedBase (cursor : Cursor) : String :=
  String.ofList ((Chain.beforeLastDot cursor.calculatedSignature.toList).getD [])

end Caret.Cursor
