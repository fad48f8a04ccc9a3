import Caret.Chain.Code
import Caret.Chain.Depth

/-! # The signature that ends at an offset

A signature is the dotted expression left of a cursor, such as `foo.bar` for a
cursor after `foo(1, 2).bar`. It is gathered from right to left. Arguments and
blocks are passed over and a subscript counts as a call named `[]`. White space
ends the signature unless a dot stands on one of its sides.
-/

namespace Caret.Chain

open Text

/-- What surrounds the cursor when a scan starts. -/
inductive Mode where
  /-- Code, directly at the cursor. -/
  | normal
  /-- Code, with white space already crossed. -/
  | whitespace
  | comment
  /-- The text of a literal that begins at `floor`. -/
  | string (floor : Nat)
deriving DecidableEq, Repr

/-- A scanned signature: its characters, the leftmost offset from which one of
them was copied, and the offset at which its source text begins. -/
structure Signature where
  anchor : Option Nat
  chars : List Char
  start : Nat
deriving DecidableEq, Repr

/-- What a walk to the left has gathered so far. -/
structure Walk where
  anchor : Option Nat
  chars : List Char
  depth : Depth
  afterBlank : Bool

namespace Walk

/-- A walk that has not seen any character. -/
def start (afterBlank : Bool) : Walk :=
  ⟨none, [], .zero, afterBlank⟩

/-- Copy the character at `index` to the front of the signature. -/
def copy (walk : Walk) (index : Nat) (c : Char) : Walk :=
  { walk with anchor := some index, chars := c :: walk.chars }

def finish (walk : Walk) (start : Nat) : Signature :=
  ⟨walk.anchor, walk.chars, start⟩

end Walk

/-- Whether a walk goes on past a character or ends, and where its signature
then begins. -/
inductive Step where
  | next (walk : Walk)
  | stop (walk : Walk) (start : Nat)

namespace Code

/-- A character outside all brackets that is no boundary. Sigils are the left
end of a name, and what follows a percent sign is no part of one. -/
def takeChar (code : Code) (index : Nat) (c : Char) (walk : Walk) : Step :=
  let walk := if isSignatureChar c && !code.hasBefore index 1 '%' then walk.copy index c else walk
  if c = '$' then
    .stop walk index
  else if c = '@' then
    if code.hasBefore index 1 '@' then .stop (walk.copy (index - 1) '@') (index - 1)
    else .stop walk index
  else
    .next walk

/-- A significant character: keep the depth, and stop where an enclosing bracket
opens or a boundary stands. The opener of a subscript gives `.[]`. -/
def crossChar (code : Code) (index : Nat) (c : Char) (walk : Walk) : Step :=
  let depth := walk.depth.track c
  let subscript := c = '[' && depth.isZero && !code.hasBefore index 2 '%'
  let chars := if subscript then '.' :: '[' :: ']' :: walk.chars else walk.chars
  let walk := { walk with chars, depth, afterBlank := false }
  if depth.leftBracket then .stop walk (index + 1)
  else if !depth.isZero then .next walk
  else if isBoundary c then .stop walk (index + 1)
  else code.takeChar index c walk

/-- One character of code. After white space outside all brackets the walk only
goes on over a dot, which stands either here or on the right of the space. -/
def stepBack (code : Code) (index : Nat) (c : Char) (walk : Walk) : Step :=
  if walk.depth.isZero && isBlank c then
    .next { walk with afterBlank := true }
  else if walk.depth.isZero && walk.afterBlank && c ≠ '.' && !code.continuesChain (index + 1) then
    .stop walk (code.skipBlanks (index + 1))
  else
    code.crossChar index c walk

/-- Walk to the left from a cursor until a character stops the walk. -/
def walkBack (code : Code) (walk : Walk) : Nat → Signature
  | 0 => walk.finish 0
  | index + 1 =>
      match code.chars[index]? with
      | none => walk.finish 0
      | some c =>
          match hcomment : code.commentHolding index with
          | some comment =>
              have : comment.start < index + 1 :=
                Nat.lt_succ_of_le (commentHolding_bounds hcomment).1
              code.walkBack { walk with afterBlank := walk.afterBlank || walk.depth.isZero }
                comment.start
          | none =>
              match code.stepBack index c walk with
              | .next walk => code.walkBack walk index
              | .stop walk start => walk.finish start
termination_by cursor => cursor

/-- The signature that ends at an offset, or at the end of the text. In a comment
or in the text of a literal there is none. -/
def scan (code : Code) (offset : Nat) (mode : Mode) : Signature :=
  let cursor := min offset code.chars.size
  let scanned := fun afterBlank =>
    let signature := code.walkBack (.start afterBlank) cursor
    -- The blanks after a break may reach past the cursor.
    { signature with start := min signature.start cursor }
  match mode with
  | .normal => scanned false
  | .whitespace => scanned true
  | .comment => ⟨none, [], cursor⟩
  | .string floor => ⟨none, [], min floor cursor⟩

end Code

end Caret.Chain
