import Caret.Text.Character

/-! # The word around an offset -/

namespace Caret.Chain

open Text

/-- Where the word that ends at an offset begins. It may end in a method mark,
and it includes the sigil of a variable or the colon of a symbol. -/
def wordStart (chars : Array Char) (offset : Nat) : Nat :=
  let cursor := min offset chars.size
  let marked := if cursor ≠ 0 ∧ chars[cursor - 1]?.any isMethodMark then cursor - 1 else cursor
  let name := runStart isWordChar chars marked
  match name with
  | 0 => 0
  | sigil + 1 =>
      let before := if sigil = 0 then none else chars[sigil - 1]?
      match chars[sigil]? with
      | some '@' => if before = some '@' then sigil - 1 else sigil
      | some '$' => sigil
      | some ':' => if before = some ':' then name else sigil
      | _ => name

/-- Where the word that goes on at an offset ends. -/
def wordEnd (chars : Array Char) (offset : Nat) : Nat :=
  runEnd isWordTail chars offset

end Caret.Chain
