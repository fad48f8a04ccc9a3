import Caret.Text.Span

/-! # Syntax trees

A tree is what the parser reports about a text. It may hold error nodes, and
nodes without text where the parser supplied a missing token.
-/

namespace Caret.Syntax

/-- What the parser says about one node. Anonymous nodes are punctuation and
keywords. The field is the part that the node plays in its parent. -/
structure Label where
  kind : String
  named : Bool
  bytes : Text.Span
  field : Option String
deriving DecidableEq, Repr

inductive Tree where
  | node (label : Label) (children : List Tree)
deriving Repr

namespace Tree

def label : Tree → Label
  | node label _ => label

def children : Tree → List Tree
  | node _ children => children

def kind (tree : Tree) : String :=
  tree.label.kind

def named (tree : Tree) : Bool :=
  tree.label.named

def bytes (tree : Tree) : Text.Span :=
  tree.label.bytes

/-- The first child that plays a part. -/
def child? (tree : Tree) (field : String) : Option Tree :=
  tree.children.find? fun child => child.label.field = some field

mutual

/-- All nodes, every node before its children. -/
def preorder : Tree → List Tree
  | node label children => node label children :: preorderList children

def preorderList : List Tree → List Tree
  | [] => []
  | tree :: rest => preorder tree ++ preorderList rest

end

end Tree

/-- A text's tree, and whether the parser met errors in it. -/
structure Parsed where
  tree : Tree
  hasError : Bool

end Caret.Syntax
