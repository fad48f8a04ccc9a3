import Caret.Chain.Depth

/-! # Open argument lists -/

namespace Caret.Chain

/-- The first offset to the left at which one more parenthesis has opened than
closed, where `depth` counts what lies right of the walk. -/
def openParen (chars : Array Char) (depth : Int) : Nat → Option Nat
  | 0 => none
  | index + 1 =>
      let depth := match chars[index]? with
        | some ')' => lower depth
        | some '(' => raise depth
        | _ => depth
      if depth = 1 then some index else openParen chars depth index

/-- The parenthesis whose argument list holds an offset. -/
def openParenBefore (chars : Array Char) (offset : Nat) : Option Nat :=
  openParen chars 0 (min offset chars.size)

theorem openParen_lt {chars : Array Char} {depth : Int} {cursor index : Nat}
    (hopen : openParen chars depth cursor = some index) : index < cursor := by
  fun_induction openParen chars depth cursor with
  | case1 depth => simp at hopen
  | case2 depth cursor next hnext =>
      obtain rfl := Option.some.inj hopen
      omega
  | case3 depth cursor next hnext ih =>
      have hindex := ih hopen
      omega

theorem openParenBefore_lt {chars : Array Char} {offset index : Nat}
    (hopen : openParenBefore chars offset = some index) : index < offset :=
  Nat.lt_of_lt_of_le (openParen_lt hopen) (Nat.min_le_left _ _)

end Caret.Chain
