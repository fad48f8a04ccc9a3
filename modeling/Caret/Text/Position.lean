/-! # Lines and columns

Positions are zero-based and columns count characters.
-/

namespace Caret.Text

/-- A line and a column in it, both counted from zero. -/
structure Position where
  line : Nat
  column : Nat
deriving DecidableEq, Repr

namespace Position

/-- Positions are ordered by line, and within a line by column. -/
instance : LT Position where
  lt left right := left.line < right.line ∨ left.line = right.line ∧ left.column < right.column

instance : LE Position where
  le left right := left.line < right.line ∨ left.line = right.line ∧ left.column ≤ right.column

instance (left right : Position) : Decidable (left < right) :=
  inferInstanceAs (Decidable (_ ∨ _))

instance (left right : Position) : Decidable (left ≤ right) :=
  inferInstanceAs (Decidable (_ ∨ _))

theorem lt_def {left right : Position} :
    left < right ↔
      left.line < right.line ∨ left.line = right.line ∧ left.column < right.column :=
  Iff.rfl

theorem le_def {left right : Position} :
    left ≤ right ↔
      left.line < right.line ∨ left.line = right.line ∧ left.column ≤ right.column :=
  Iff.rfl

end Position

/-- Two positions that delimit a piece of text. -/
structure Region where
  start : Position
  stop : Position
deriving DecidableEq, Repr

namespace Region

/-- Both ends belong to the region. -/
def contains (region : Region) (position : Position) : Bool :=
  region.start ≤ position && position ≤ region.stop

end Region

end Caret.Text
