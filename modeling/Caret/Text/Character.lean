/-! # Characters

Names and signatures are made of ASCII characters. A letter from outside ASCII
belongs to none of the classes here. A run of characters of one class is looked
for from one of its ends, and a run of digits can be read as a number.
-/

namespace Caret.Text

section Classes

/-- White space that separates statements or the calls of a chain. -/
def isBlank (c : Char) : Bool :=
  c = ' ' || c = '\t' || c = '\n' || c = '\r'

/-- A character outside all brackets that no signature reaches across. -/
def isBoundary (c : Char) : Bool :=
  c = '"' || c = '\'' || c = ',' || c = ';' || c = '%'

/-- A character that can stand in a signature. -/
def isSignatureChar (c : Char) : Bool :=
  c.isAlphanum || c = ':' || c = '.' || c = '_' || c = '@' || c = '$'

/-- A character of a name. -/
def isWordChar (c : Char) : Bool :=
  c.isAlphanum || c = '_'

/-- The mark that may end the name of a method. -/
def isMethodMark (c : Char) : Bool :=
  c = '?' || c = '!'

/-- A character that continues a name after the cursor. -/
def isWordTail (c : Char) : Bool :=
  isWordChar c || isMethodMark c

end Classes

section Runs

/-- The first offset from `offset` on that holds no character of the class. An
offset past the end is returned as it is. -/
def runEnd (inClass : Char → Bool) (chars : Array Char) (offset : Nat) : Nat :=
  if h : offset < chars.size then
    if inClass chars[offset] then runEnd inClass chars (offset + 1) else offset
  else
    offset
termination_by chars.size - offset

/-- The start of the run of the class that ends at an offset. -/
def runStart (inClass : Char → Bool) (chars : Array Char) : Nat → Nat
  | 0 => 0
  | index + 1 =>
      if chars[index]?.any inClass then runStart inClass chars index else index + 1

theorem le_runEnd (inClass : Char → Bool) (chars : Array Char) (offset : Nat) :
    offset ≤ runEnd inClass chars offset := by
  fun_induction runEnd inClass chars offset <;> omega

theorem runStart_le (inClass : Char → Bool) (chars : Array Char) (offset : Nat) :
    runStart inClass chars offset ≤ offset := by
  fun_induction runStart inClass chars offset <;> omega

end Runs

section Numbers

/-- The value of ASCII digits. -/
def digitsValue (digits : List Char) : Nat :=
  digits.foldl (fun total digit => 10 * total + (digit.toNat - '0'.toNat)) 0

/-- The number of 64 bits that ASCII digits are written for. It may begin with
zeros. -/
def decimal? (digits : List Char) : Option Nat :=
  let value := digitsValue digits
  if !digits.isEmpty && digits.all Char.isDigit && value < UInt64.size then some value else none

end Numbers

end Caret.Text
