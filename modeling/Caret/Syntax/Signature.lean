import Caret.Syntax.Kind
import Caret.Syntax.Tree
import Caret.Text.Index

/-! # The signature of an expression

A call chain such as `foo(1).bar` has the signature `foo.bar`, and a literal
that of a call of `new` on its class. Arithmetic, conditionals and the like have
none.
-/

namespace Caret.Syntax

open Text

mutual

def signature (index : Index) : Tree → Option String
  | .node label children =>
      match literalClass? label.kind with
      | some literal => some (literal ++ ".new")
      | none =>
          if label.kind = "call" then
            match (children.find? (·.label.field = some "method")).bind (index.byteSlice ·.bytes) with
            | none => none
            | some method =>
                match partSignature index "receiver" children with
                | none => some method
                | some receiver => receiver.map (· ++ "." ++ method)
          else if isName label.kind then
            index.byteSlice label.bytes
          else if label.kind = "element_reference" then
            (partSignature index "object" children).join.map (· ++ ".[]")
          else if label.kind = "parenthesized_statements" then
            soleSignature index children
          else
            none

/-- The signature of the first child that plays a part. The outer option tells
whether there is such a child. -/
def partSignature (index : Index) (field : String) : List Tree → Option (Option String)
  | [] => none
  | child :: rest =>
      if child.label.field = some field then some (signature index child)
      else partSignature index field rest

/-- The signature of the only named child. -/
def soleSignature (index : Index) : List Tree → Option String
  | [] => none
  | child :: rest =>
      if child.named then
        if rest.any (·.named) then none else signature index child
      else
        soleSignature index rest

end

end Caret.Syntax
