import Caret.Chain.Word
import Caret.Cursor.Basic

/-! # The word at a cursor -/

namespace Caret.Cursor

open Text

/-- The part of the word after the cursor. -/
def remainder (cursor : Cursor) : String :=
  cursor.buffer.index.slice
    ⟨cursor.offset, Chain.wordEnd cursor.buffer.index.chars cursor.offset⟩

/-- The part of the word before the cursor, with its sigil. -/
def word (cursor : Cursor) : String :=
  cursor.buffer.index.slice
    ⟨Chain.wordStart cursor.buffer.index.chars cursor.offset, cursor.offset⟩

def wholeWord (cursor : Cursor) : String :=
  cursor.word ++ cursor.remainder

/-- The position of an offset in the buffer. -/
def positionOf (cursor : Cursor) (offset : Nat) : Position :=
  (cursor.buffer.index.positionOf offset).toOption.getD cursor.position

/-- Where the range of the word starts. A colon before the word belongs to it
unless it is the first character of the text or one of two colons. -/
def rangeStart (cursor : Cursor) : Nat :=
  let start := Chain.wordStart cursor.buffer.index.chars cursor.offset
  if 1 < start ∧ cursor.charAt (start - 1) = some ':' ∧ cursor.charAt (start - 2) ≠ some ':' then
    start - 1
  else
    start

/-- The range from the start of the word to some offset. -/
def rangeUpTo (cursor : Cursor) (stop : Nat) : Region :=
  ⟨cursor.positionOf cursor.rangeStart, cursor.positionOf (max stop cursor.rangeStart)⟩

/-- The range of the word up to the cursor. -/
def wordRange (cursor : Cursor) : Region :=
  cursor.rangeUpTo cursor.offset

/-- The range of the word on both sides of the cursor. -/
def wholeWordRange (cursor : Cursor) : Region :=
  cursor.rangeUpTo (Chain.wordEnd cursor.buffer.index.chars cursor.offset)

end Caret.Cursor
