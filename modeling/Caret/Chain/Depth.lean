/-! # Bracket depth of a backward walk

Seen from the right, a closing bracket comes before its opening bracket. Closers
therefore lower a counter and openers raise it, and a positive counter tells
that the walk has left a bracket pair it started in.
-/

namespace Caret.Chain

/-- Counters have 32 bits and stay at their limits. -/
def raise (counter : Int) : Int :=
  min (counter + 1) 0x7fffffff

def lower (counter : Int) : Int :=
  max (counter - 1) (-0x80000000)

/-- One counter for each kind of bracket. The kinds do not see each other. -/
structure Depth where
  braces : Int
  parens : Int
  squares : Int
deriving DecidableEq, Repr

namespace Depth

def zero : Depth :=
  ⟨0, 0, 0⟩

/-- Whether the walk is inside no bracket pair. -/
def isZero (depth : Depth) : Bool :=
  depth.braces = 0 && depth.parens = 0 && depth.squares = 0

/-- Whether the walk has crossed an opener whose closer lies right of its start. -/
def leftBracket (depth : Depth) : Bool :=
  0 < depth.braces || 0 < depth.parens || 0 < depth.squares

/-- The depth on the far side of a character. -/
def track (depth : Depth) (c : Char) : Depth :=
  match c with
  | ')' => { depth with parens := lower depth.parens }
  | ']' => { depth with squares := lower depth.squares }
  | '\x7d' => { depth with braces := lower depth.braces }
  | '(' => { depth with parens := raise depth.parens }
  | '[' => { depth with squares := raise depth.squares }
  | '\x7b' => { depth with braces := raise depth.braces }
  | _ => depth

end Depth

end Caret.Chain
