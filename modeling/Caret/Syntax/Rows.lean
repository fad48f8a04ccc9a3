import Caret.Syntax.Tree

/-! # Trees from rows

The parser writes a tree as one row per node in pre-order. The depth of a row
tells which of the nodes before it is its parent.
-/

namespace Caret.Syntax

structure Row where
  depth : Nat
  label : Label
deriving Repr

namespace Row

/-- Put a row in front of the trees of the rows after it. The deeper ones among
the first of them become its children. -/
def attach (row : Row) (pending : List (Nat × Tree)) : List (Nat × Tree) :=
  let (inner, outer) := pending.span fun entry => row.depth < entry.1
  (row.depth, .node row.label (inner.map (·.2))) :: outer

/-- Read a row from a line of fields that are separated by tabs: the depth, `1` for
a named node and `0` for another, the first byte, the byte after the last one, the
part that the node plays or nothing, and the kind. -/
def ofLine? (line : String) : Option Row :=
  match (line.toList.splitOn '\t').map String.ofList with
  | [depth, named, start, stop, field, kind] => do
      let field := if field.isEmpty then none else some field
      return ⟨← depth.toNat?, ⟨kind, named = "1", ⟨← start.toNat?, ← stop.toNat?⟩, field⟩⟩
  | _ => none

end Row

/-- The trees that a list of rows describes, one for each row that is not deeper
than the rows before it. -/
def treesOfRows (rows : List Row) : List Tree :=
  (rows.foldr Row.attach []).map (·.2)

namespace Parsed

/-- The result of a parser that has found nothing. -/
def nothing : Parsed :=
  ⟨.node ⟨"program", true, ⟨0, 0⟩, none⟩ [], true⟩

/-- Read the lines that the parser writes. The first is `errors` if it met any. -/
def ofLines? : List String → Option Parsed
  | [] => none
  | status :: lines => do
      let rows ← lines.mapM Row.ofLine?
      let tree ← (treesOfRows rows).head?
      return ⟨tree, status = "errors"⟩

end Parsed

end Caret.Syntax
