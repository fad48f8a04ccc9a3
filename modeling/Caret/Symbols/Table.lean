import Caret.Syntax.Enclosure

/-! # Symbols of a buffer

The methods that a buffer defines and the local variables that it assigns.
-/

namespace Caret.Symbols

open Text Syntax

/-- Whether code runs at the level of a class or of its instances. -/
inductive Scope where
  | classLevel
  | instanceLevel
deriving DecidableEq, Repr

def Scope.name : Scope → String
  | classLevel => "class"
  | instanceLevel => "instance"

/-- A method definition and the text it covers. -/
structure Method where
  name : String
  span : Span
  scope : Scope
deriving DecidableEq, Repr

namespace Method

/-- A definition still holds the offset right after it. -/
def contains (method : Method) (offset : Nat) : Bool :=
  method.span.start ≤ offset && offset ≤ method.span.stop

end Method

/-- An assignment to a local variable. The signature is that of the assigned
expression, if it has one. -/
structure Local where
  name : String
  signature : Option String
  enclosure : Enclosure
  region : Region
deriving DecidableEq, Repr

namespace Local

/-- Whether the variable can be used at a position. The assignment must end
before it, so its own right-hand side does not see the variable. -/
def visibleFrom (assigned : Local) (enclosure : Enclosure) (position : Position) : Bool :=
  assigned.enclosure.encloses enclosure && assigned.region.stop < position

end Local

/-- All symbols of a buffer, in source order. -/
structure Table where
  locals : List Local
  methods : List Method
deriving DecidableEq, Repr

namespace Table

def localsNamed (table : Table) (name : String) : List Local :=
  table.locals.filter (·.name = name)

/-- The shortest method that holds an offset, the first of several. -/
def methodAt (table : Table) (offset : Nat) : Option Method :=
  (table.methods.filter (·.contains offset)).minOn? (·.span.length)

end Table

end Caret.Symbols
