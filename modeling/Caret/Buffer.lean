import Caret.Chain.Code
import Caret.Symbols.Collection
import Caret.Syntax.Enclosure
import Caret.Syntax.Place

/-! # Buffers

A buffer is a text with its syntax tree and its symbols. It never changes. An
edited text is another buffer.
-/

namespace Caret

open Text Syntax Symbols

/-- A text together with everything that is looked up in it. -/
structure Buffer where
  text : String
  index : Index
  tree : Tree
  hasError : Bool
  comments : Array Span
  symbols : Table
  index_eq : index = .ofString text
  comments_eq : comments = (Syntax.comments index tree).toArray

namespace Buffer

/-- A buffer with symbols from elsewhere. -/
def withSymbols (text : String) (parsed : Parsed) (symbols : Table) : Buffer where
  text := text
  index := .ofString text
  tree := parsed.tree
  hasError := parsed.hasError
  comments := (Syntax.comments (.ofString text) parsed.tree).toArray
  symbols := symbols
  index_eq := rfl
  comments_eq := rfl

/-- A buffer with the symbols that its tree defines. -/
def ofParsed (text : String) (parsed : Parsed) : Buffer :=
  withSymbols text parsed (.ofTree (.ofString text) parsed.tree)

def size (buffer : Buffer) : Nat :=
  buffer.index.size

def isEmpty (buffer : Buffer) : Bool :=
  buffer.size = 0

/-- Whether the text was parsed without errors. -/
def isValid (buffer : Buffer) : Bool :=
  !buffer.hasError

/-- What a scan for signatures reads. -/
def code (buffer : Buffer) : Chain.Code :=
  ⟨buffer.index.chars, buffer.comments⟩

/-- The nodes around an offset, innermost first. A node that ends at the offset
is around it and a node that starts there is not, since the character before the
cursor is the one being typed. At the start of the text there is no such character,
and the nodes that start there are listed. There are none past the end of the text. -/
def enclosing (buffer : Buffer) (offset : Nat) : List Place :=
  match buffer.index.byteOf offset with
  | none => []
  | some stop =>
      let start := match offset with
        | 0 => stop
        | before + 1 => (buffer.index.byteOf before).getD stop
      buffer.tree.covering ⟨start, stop⟩

/-- The innermost named node that covers the character at an offset. -/
def nodeAt (buffer : Buffer) (offset : Nat) : Option Place := do
  let start ← buffer.index.byteOf offset
  let stop ← buffer.index.byteOf (offset + 1)
  return buffer.tree.coveringNamed ⟨start, stop⟩

/-- Whether an offset lies in a comment. Right before the first character of a
comment there is still code. -/
def inComment (buffer : Buffer) (offset : Nat) : Bool :=
  buffer.comments.any fun comment => comment.start < offset && offset ≤ comment.stop

/-- The enclosure of the innermost node around an offset. -/
def enclosureAt (buffer : Buffer) (offset : Nat) : Enclosure :=
  ((buffer.enclosing offset).headD (.root buffer.tree)).enclosure buffer.index

/-- A short description for diagnostics. -/
def describe (buffer : Buffer) : String :=
  "Source \x7b len: " ++ toString buffer.size ++ ", parsed: " ++ toString buffer.isValid ++
    ", .. \x7d"

end Buffer

end Caret
