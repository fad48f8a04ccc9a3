import Caret.Symbols.Table

/-! # Following local variables

The value of a variable may be another variable. Its assignments are followed
from one name to the next, seen from a fixed place in the code.
-/

namespace Caret.Symbols

open Text Syntax

/-- One followed assignment: the name it was found under and the signature that
it leads to. -/
structure TrailStep where
  name : String
  target : String
deriving DecidableEq, Repr

/-- The assignments followed from a name, the name or signature they end in, and
the variable that would be followed a second time, if there is one. -/
structure Trail where
  steps : List TrailStep
  result : String
  repeated : Option String
deriving DecidableEq, Repr

namespace Table

/-- The local variables seen from a place, each with its index in the table. -/
def visible (table : Table) (enclosure : Enclosure) (position : Position) : List (Local × Nat) :=
  table.locals.zipIdx.filter fun entry => entry.1.visibleFrom enclosure position

/-- The latest assignment to a name among those seen from a place. Of several
that start at one position it is the last. -/
def latest (table : Table) (enclosure : Enclosure) (position : Position) (name : String) :
    Option (Local × Nat) :=
  ((table.visible enclosure position).filter (·.1.name = name)).reverse.maxOn?
    (·.1.region.start)

end Table

/-- Follow names through the assignments that `lookup` finds, and never one
assignment twice. The assignments are told apart by their indices, and `unseen`
lists those that may still be followed. -/
def follow (lookup : String → Option (Local × Nat)) (unseen : List Nat) (name : String) : Trail :=
  match lookup name with
  | none => ⟨[], name, none⟩
  | some (assigned, index) =>
      if hunseen : index ∈ unseen then
        match assigned.signature with
        | none => ⟨[], name, none⟩
        | some target =>
            have : (unseen.erase index).length < unseen.length := by
              have hlength := List.length_erase_of_mem hunseen
              have hpositive := List.length_pos_of_mem hunseen
              omega
            let rest := follow lookup (unseen.erase index) target
            { rest with steps := ⟨name, target⟩ :: rest.steps }
      else
        ⟨[], name, some assigned.name⟩
termination_by unseen.length

/-- The trail of a name, seen from a place. -/
def Table.trail (table : Table) (enclosure : Enclosure) (position : Position) (name : String) :
    Trail :=
  follow (table.latest enclosure position) (List.range table.locals.length) name

end Caret.Symbols
