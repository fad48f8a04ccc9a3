import Caret.Syntax.Kind
import Caret.Syntax.Place
import Caret.Text.Index

/-! # The text that nodes cover

The stretches that comments cover are left out by a scan. Those of gates and blocks
are the scope of local variables.
-/

namespace Caret.Syntax

open Text

/-- The stretch of text that a node covers. A program covers the whole text, also
where its node leaves out blanks at the ends. -/
def Tree.charSpan (index : Index) (tree : Tree) : Span :=
  if tree.kind = "program" then ⟨0, index.size⟩ else index.charSpan tree.bytes

mutual

/-- The spans of all comments in source order. A comment is not searched for
further comments. -/
def comments (index : Index) : Tree → List Span
  | .node label children =>
      if label.kind = "comment" then [(Tree.node label children).charSpan index]
      else commentsOfList index children

def commentsOfList (index : Index) : List Tree → List Span
  | [] => []
  | tree :: rest => comments index tree ++ commentsOfList index rest

end

/-- Where code stands for the sake of local variables. No variable is seen across
the border of the gate. The block is the innermost block inside the gate, or the
gate where there is none. -/
structure Enclosure where
  gate : Span
  block : Span
deriving DecidableEq, Repr

namespace Enclosure

/-- Whether code at `other` sees the variables of this enclosure. -/
def encloses (enclosure other : Enclosure) : Bool :=
  enclosure.gate = other.gate && enclosure.block.start ≤ other.block.start &&
    other.block.stop ≤ enclosure.block.stop

/-- The enclosure of the first of some nested nodes, listed from the inside. The
whole text is the gate if none of them is one. -/
def ofNested (index : Index) : List Tree → Enclosure
  | [] => ⟨⟨0, index.size⟩, ⟨0, index.size⟩⟩
  | tree :: rest =>
      if isGate tree.kind then
        ⟨tree.charSpan index, tree.charSpan index⟩
      else if isBlock tree.kind then
        ⟨(ofNested index rest).gate, tree.charSpan index⟩
      else
        ofNested index rest

end Enclosure

/-- The enclosure of a node. A block or a gate lies in itself. -/
def Place.enclosure (index : Index) (place : Place) : Enclosure :=
  .ofNested index (place.upward.map (·.tree))

end Caret.Syntax
