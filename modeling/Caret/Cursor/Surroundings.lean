import Caret.Chain.Scan
import Caret.Cursor.Basic

/-! # What stands around a cursor -/

namespace Caret.Cursor

open Text Syntax Symbols

/-- The classes and modules around the cursor, joined from the outside in. -/
def namespacePath (cursor : Cursor) : Option String :=
  let names := cursor.enclosing.reverse.filterMap fun place =>
    if isNamespace place.tree.kind then
      (place.tree.child? "name").bind (cursor.buffer.index.byteSlice ·.bytes)
    else
      none
  if names.isEmpty then none else some ("::".intercalate names)

/-- The scope of the method around the cursor. Directly in a class, and outside
of everything, code runs at the level of a class. -/
def scope (cursor : Cursor) : Scope :=
  let around := cursor.enclosing.find? fun place =>
    isNamespace place.tree.kind || isMethod place.tree.kind
  match around with
  | some place =>
      if isMethod place.tree.kind then
        ((cursor.buffer.symbols.methodAt cursor.offset).map (·.scope)).getD .instanceLevel
      else
        .classLevel
  | none => .classLevel

/-- Whether the innermost node with parts is a method call. -/
def isChained (cursor : Cursor) : Bool :=
  (cursor.enclosing.find? (!·.tree.children.isEmpty)).any (·.tree.kind = "call")

/-- Whether a node is an interpolation that the cursor only touches: it stands
before the opening brace or after the closing one. -/
def isOutsideInterpolation (cursor : Cursor) (tree : Tree) : Bool :=
  let span := tree.charSpan cursor.buffer.index
  tree.kind = "interpolation" && (cursor.offset < span.start + 2 || span.stop ≤ cursor.offset)

/-- The literal in whose text the cursor stands. It is the outermost of the
literals that contain each other without code between them, and the cursor must
lie strictly inside it. -/
def literalAround (cursor : Cursor) : Option Tree :=
  let nested := (cursor.enclosing.map (·.tree)).dropWhile (!·.named)
  let outermost := (nested.takeWhile fun tree =>
    isLiteralText tree.kind || cursor.isOutsideInterpolation tree).getLast?
  outermost.filter fun tree =>
    let span := tree.charSpan cursor.buffer.index
    span.start < cursor.offset && cursor.offset < span.stop

def isString (cursor : Cursor) : Bool :=
  cursor.literalAround.isSome

/-- Whether the cursor stands in a comment. The text of a literal is none, also
where it looks like one. -/
def isComment (cursor : Cursor) : Bool :=
  !cursor.isString && cursor.buffer.inComment cursor.offset

def isValid (cursor : Cursor) : Bool :=
  cursor.buffer.isValid

/-- Where the text of a literal begins, after its opening delimiter. -/
def textStart (cursor : Cursor) (literal : Tree) : Nat :=
  match literal.children with
  | opener :: _ =>
      if opener.named then (literal.charSpan cursor.buffer.index).start
      else (opener.charSpan cursor.buffer.index).stop
  | [] => (literal.charSpan cursor.buffer.index).start

/-- How a scan for the signature has to read the text before the cursor. -/
def mode (cursor : Cursor) : Chain.Mode :=
  if cursor.isComment then
    .comment
  else
    match cursor.literalAround with
    | some literal => .string (cursor.textStart literal)
    | none => .normal

end Caret.Cursor
