import Caret.Symbols.Table
import Caret.Syntax.Signature

/-! # Collecting the symbols of a tree

The walk goes through the tree in source order. It carries the scope that a
method defined at that point would get.
-/

namespace Caret.Symbols

open Text Syntax

inductive Definition where
  | method (method : Method)
  | assignment (assigned : Local)

/-- A bare `module_function` statement, which makes class methods of the methods
after it. -/
def isModuleFunction (index : Index) (parent child : Tree) : Bool :=
  child.kind = "identifier" && (isNamespace parent.kind || parent.kind = "body_statement") &&
    index.byteSlice child.bytes = some "module_function"

/-- The scope of the methods directly inside a node of some kind, which itself
stands where methods get `scope`. -/
def Scope.inside (scope : Scope) (kind : String) : Scope :=
  if isNamespace kind || isMethod kind then .instanceLevel
  else if kind = "singleton_class" then .classLevel
  else scope

/-- The method that a node defines. It needs a name. -/
def methodOf (index : Index) (scope : Scope) (tree : Tree) : Option Method := do
  let name ← index.byteSlice (← tree.child? "name").bytes
  return ⟨name, tree.charSpan index, scope⟩

/-- The local variable that a node assigns. Only a plain name on the left is one,
since assignments to attributes and elements are calls. -/
def localOf (index : Index) (place : Place) : Option Local := do
  let left ← place.tree.child? "left"
  guard (left.kind = "identifier")
  let name ← index.byteSlice left.bytes
  let span := place.tree.charSpan index
  let start ← (index.positionOf span.start).toOption
  let stop ← (index.positionOf span.stop).toOption
  let assigned := (place.tree.child? "right").bind (signature index)
  return ⟨name, assigned, place.enclosure index, ⟨start, stop⟩⟩

/-- What the node of a place itself defines. -/
def definitionOf (index : Index) (scope : Scope) (place : Place) : List Definition :=
  if place.tree.kind = "method" then
    ((methodOf index scope place.tree).map .method).toList
  else if place.tree.kind = "singleton_method" then
    ((methodOf index .classLevel place.tree).map .method).toList
  else if isAssignment place.tree.kind then
    ((localOf index place).map .assignment).toList
  else
    []

mutual

/-- All definitions below a node, whose direct methods get `scope`. -/
def definitionsBelow (index : Index) (scope : Scope) (above : List (Tree × Nat)) :
    Tree → List Definition
  | .node label children =>
      definitionsAmong index scope (.node label children) 0 above children

def definitionsAmong (index : Index) (scope : Scope) (parent : Tree) (position : Nat)
    (above : List (Tree × Nat)) : List Tree → List Definition
  | [] => []
  | child :: rest =>
      if isModuleFunction index parent child then
        definitionsAmong index .classLevel parent (position + 1) above rest
      else
        definitionOf index scope ⟨child, (parent, position) :: above⟩ ++
          definitionsBelow index (scope.inside child.kind) ((parent, position) :: above) child ++
          definitionsAmong index scope parent (position + 1) above rest

end

/-- The symbols of a tree over an indexed text. -/
def Table.ofTree (index : Index) (tree : Tree) : Table :=
  let definitions := definitionsBelow index .instanceLevel [] tree
  { locals := definitions.filterMap fun
      | .assignment assigned => some assigned
      | .method _ => none
    methods := definitions.filterMap fun
      | .method method => some method
      | .assignment _ => none }

end Caret.Symbols
