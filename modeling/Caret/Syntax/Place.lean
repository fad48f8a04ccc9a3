import Caret.Syntax.Tree

/-! # Places in a tree

A place is a node together with the way back to the root. Two nodes may look
alike and cover the same text, but their places differ.

The places that cover a stretch of bytes are found from the root downwards. At each
node only one child is tried, the first that reaches the end of the stretch and does
not stop at its start.
-/

namespace Caret.Syntax

open Text

/-- A node with its ancestors, closest first. Each ancestor comes with the index
of the child through which the way leads down. -/
structure Place where
  tree : Tree
  above : List (Tree × Nat)

namespace Place

def root (tree : Tree) : Place :=
  ⟨tree, []⟩

/-- The child indices on the way from the root to the node. -/
def address (place : Place) : List Nat :=
  (place.above.map (·.2)).reverse

def parent? (place : Place) : Option Place :=
  match place.above with
  | [] => none
  | (parent, _) :: rest => some ⟨parent, rest⟩

/-- The node and its ancestors up to the root, innermost first. -/
def lineage (tree : Tree) : List (Tree × Nat) → List Place
  | [] => [⟨tree, []⟩]
  | (parent, index) :: rest => ⟨tree, (parent, index) :: rest⟩ :: lineage parent rest

def upward (place : Place) : List Place :=
  lineage place.tree place.above

end Place

/-- Whether a node ends too early to cover the stretch. A node with text must
reach past the start of the stretch, and one without text must not lie left of
it. -/
def endsBefore (stretch bytes : Span) : Bool :=
  bytes.stop < stretch.stop ||
    if bytes.start = bytes.stop then bytes.stop < stretch.start else bytes.stop ≤ stretch.start

mutual

/-- The nodes on the way down to the innermost one that covers the stretch,
innermost first. The node where the descent starts is always the last. -/
def descend (stretch : Span) (above : List (Tree × Nat)) : Tree → List Place
  | .node label children =>
      descendInto stretch (.node label children) 0 above children ++
        [⟨.node label children, above⟩]

def descendInto (stretch : Span) (parent : Tree) (index : Nat) (above : List (Tree × Nat)) :
    List Tree → List Place
  | [] => []
  | child :: rest =>
      if endsBefore stretch child.bytes then
        descendInto stretch parent (index + 1) above rest
      else if stretch.start < child.bytes.start then
        []
      else
        descend stretch ((parent, index) :: above) child

end

/-- The nodes that cover a stretch of bytes, innermost first and the root last. -/
def Tree.covering (tree : Tree) (stretch : Span) : List Place :=
  descend stretch [] tree

/-- The innermost named node that covers a stretch, or else the root. -/
def Tree.coveringNamed (tree : Tree) (stretch : Span) : Place :=
  ((tree.covering stretch).find? (·.tree.named)).getD (.root tree)

end Caret.Syntax
