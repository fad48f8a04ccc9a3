import Caret.Buffer

/-! # Cursors

A cursor stands between two characters of a buffer, or at one of its ends.
-/

namespace Caret

open Text Syntax

structure Cursor where
  buffer : Buffer
  offset : Nat
  offset_le : offset ≤ buffer.size

namespace Buffer

def cursorAt (buffer : Buffer) (offset : Nat) : Except Failure Cursor :=
  if hoffset : offset ≤ buffer.size then .ok ⟨buffer, offset, hoffset⟩
  else .error (.offsetOutOfBounds buffer.size offset)

def cursorAtPosition (buffer : Buffer) (position : Position) : Except Failure Cursor := do
  buffer.cursorAt (← buffer.index.offsetOf position)

end Buffer

namespace Cursor

/-- The line and the column of the cursor. -/
def position (cursor : Cursor) : Position :=
  cursor.buffer.index.lineColumn cursor.offset

/-- The nodes around the cursor, innermost first. -/
def enclosing (cursor : Cursor) : List Place :=
  cursor.buffer.enclosing cursor.offset

def innermost (cursor : Cursor) : Option Place :=
  cursor.enclosing.head?

def enclosure (cursor : Cursor) : Enclosure :=
  cursor.buffer.enclosureAt cursor.offset

/-- The character at an offset. -/
def charAt (cursor : Cursor) (offset : Nat) : Option Char :=
  cursor.buffer.index.chars[offset]?

/-- A short description for diagnostics. -/
def describe (cursor : Cursor) : String :=
  let position := cursor.position
  "Fragment \x7b offset: " ++ toString cursor.offset ++ ", position: Position \x7b line: " ++
    toString position.line ++ ", column: " ++ toString position.column ++ " \x7d, .. \x7d"

end Cursor

end Caret
