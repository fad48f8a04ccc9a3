import Caret.Failure
import Caret.Text.Span

/-! # Offsets, bytes and positions of a text

An offset counts characters. Only a line feed ends a line, so every offset from
the start of the text to its end has exactly one position. A carriage return is
an ordinary character of its line.
-/

namespace Caret.Text

/-- The byte at which each character begins, and after them the length of the
text in bytes. -/
def byteStarts (chars : List Char) : Array Nat :=
  chars.foldl (fun starts c => starts.push (starts.back?.getD 0 + c.utf8Size)) #[0]

/-- The offset at which each line begins. Every text has a first line. -/
def lineStarts (chars : List Char) : List Nat :=
  0 :: chars.zipIdx.filterMap fun (c, offset) => if c = '\n' then some (offset + 1) else none

/-- A text split into characters, together with the places where its characters
and lines begin. -/
structure Index where
  chars : Array Char
  byteStarts : Array Nat
  lineStarts : Array Nat

namespace Index

def ofString (text : String) : Index where
  chars := text.toList.toArray
  byteStarts := Text.byteStarts text.toList
  lineStarts := (Text.lineStarts text.toList).toArray

def size (index : Index) : Nat :=
  index.chars.size

def lineCount (index : Index) : Nat :=
  index.lineStarts.size

/-- The line that holds an offset, the last one for an offset past the end. -/
def lineAt (index : Index) (offset : Nat) : Nat :=
  partitionPoint (fun line => index.lineStarts.getD line 0 ≤ offset) index.lineCount - 1

/-- The line of an offset and its distance from the start of that line. -/
def lineColumn (index : Index) (offset : Nat) : Position :=
  let line := index.lineAt offset
  ⟨line, offset - index.lineStarts.getD line 0⟩

/-- The position of an offset. The end of the text has one too. -/
def positionOf (index : Index) (offset : Nat) : Except Failure Position :=
  if offset ≤ index.size then .ok (index.lineColumn offset)
  else .error (.offsetOutOfBounds index.size offset)

/-- The last offset of a line, that of its line feed or of the end of the text. -/
def lineEnd (index : Index) (line : Nat) : Nat :=
  match index.lineStarts[line + 1]? with
  | some next => next - 1
  | none => index.size

/-- The offset of a position. A line that does not exist and a column past the
end of its line are refused, never moved. -/
def offsetOf (index : Index) (position : Position) : Except Failure Nat :=
  match index.lineStarts[position.line]? with
  | none => .error (.positionOutOfBounds position)
  | some start =>
      if start + position.column ≤ index.lineEnd position.line then
        .ok (start + position.column)
      else
        .error (.positionOutOfBounds position)

/-- The byte at which an offset lies, if the text reaches that far. -/
def byteOf (index : Index) (offset : Nat) : Option Nat :=
  index.byteStarts[offset]?

/-- The offset of a byte. A byte inside a character belongs to the offset after
it, and a byte past the end to the one after the last. -/
def charOf (index : Index) (byte : Nat) : Nat :=
  partitionPoint (fun offset => index.byteStarts.getD offset 0 < byte) index.byteStarts.size

/-- The offsets that a span of bytes covers. -/
def charSpan (index : Index) (bytes : Span) : Span :=
  ⟨index.charOf bytes.start, index.charOf bytes.stop⟩

/-- The characters of a span. What lies outside the text is left out. -/
def slice (index : Index) (span : Span) : String :=
  String.ofList (index.chars.extract span.start span.stop).toList

/-- The text of a span of bytes, provided both its ends lie between characters. -/
def byteSlice (index : Index) (bytes : Span) : Option String :=
  let span := index.charSpan bytes
  if bytes.start ≤ bytes.stop ∧ index.byteOf span.start = some bytes.start ∧
      index.byteOf span.stop = some bytes.stop then
    some (index.slice span)
  else
    none

end Index

end Caret.Text
