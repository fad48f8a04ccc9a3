/-! # Strings and integers of a settings document

A reader of strings takes the text after an opening quote, and returns the content of
the string and the text after its closing quote.
-/

namespace Caret.Toml

/-- A character that may stand in a string or a comment. Line ends are none. -/
def isPlain (c : Char) : Bool :=
  c = '\t' || (32 ≤ c.toNat && c.toNat ≠ 127)

def isBlank (c : Char) : Bool :=
  c = ' ' || c = '\t'

/-- The text after a line end. -/
def newline? : List Char → Option (List Char)
  | '\n' :: rest => some rest
  | '\r' :: '\n' :: rest => some rest
  | _ => none

def hexDigit? (c : Char) : Option Nat :=
  if c.isDigit then some (c.toNat - '0'.toNat)
  else if 'a' ≤ c ∧ c ≤ 'f' then some (c.toNat - 'a'.toNat + 10)
  else if 'A' ≤ c ∧ c ≤ 'F' then some (c.toNat - 'A'.toNat + 10)
  else none

/-- The character with a code point. Surrogates have none. -/
def codePoint? (digits : List Char) : Option Char := do
  let values ← digits.mapM hexDigit?
  let code := values.foldl (fun total value => 16 * total + value) 0
  if code.isValidChar then some (Char.ofNat code) else none

/-- The character that a backslash stands for together with what follows it. -/
def escape? : List Char → Option (Char × List Char)
  | 'b' :: rest => some ('\x08', rest)
  | 't' :: rest => some ('\t', rest)
  | 'n' :: rest => some ('\n', rest)
  | 'f' :: rest => some ('\x0c', rest)
  | 'r' :: rest => some ('\r', rest)
  | '"' :: rest => some ('"', rest)
  | '\\' :: rest => some ('\\', rest)
  | 'u' :: a :: b :: c :: d :: rest => (codePoint? [a, b, c, d]).map (·, rest)
  | 'U' :: a :: b :: c :: d :: e :: f :: g :: h :: rest =>
      (codePoint? [a, b, c, d, e, f, g, h]).map (·, rest)
  | _ => none

theorem escape?_length {input rest : List Char} {c : Char}
    (hescape : escape? input = some (c, rest)) : rest.length < input.length := by
  unfold escape? at hescape
  split at hescape
  case h_8 | h_9 =>
    obtain ⟨code, -, hcode⟩ := Option.map_eq_some_iff.mp hescape
    obtain ⟨-, rfl⟩ := Prod.mk.inj hcode
    simp only [List.length_cons]
    omega
  case h_10 => simp at hescape
  all_goals
    obtain ⟨-, rfl⟩ := Prod.mk.inj (Option.some.inj hescape)
    simp

/-- A character in front of the content of a string. -/
def prepend (c : Char) (body : Option (List Char × List Char)) : Option (List Char × List Char) :=
  body.map fun (content, rest) => (c :: content, rest)

/-- The rest of a string in double quotes. -/
def basic? (input : List Char) : Option (List Char × List Char) :=
  match input with
  | [] => none
  | '"' :: rest => some ([], rest)
  | '\\' :: rest =>
      match hescape : escape? rest with
      | some (c, after) =>
          have := escape?_length hescape
          prepend c (basic? after)
      | none => none
  | c :: rest => if isPlain c then prepend c (basic? rest) else none
termination_by input.length

/-- The rest of a string in single quotes. Nothing is escaped in it. -/
def literal? : List Char → Option (List Char × List Char)
  | [] => none
  | '\'' :: rest => some ([], rest)
  | c :: rest => if isPlain c then prepend c (literal? rest) else none

/-- Whether a backslash stands last on its line, so that the line goes on at the
next character that is neither blank nor a line end. -/
def endsLine (input : List Char) : Bool :=
  (newline? (input.dropWhile isBlank)).isSome

/-- The rest of a string in three double quotes. While `trimming`, blanks and line
ends are passed over. Up to two quotes may stand right before the closing ones. -/
def multilineBasic? (trimming : Bool) (input : List Char) : Option (List Char × List Char) :=
  match input with
  | [] => none
  | '"' :: '"' :: '"' :: '"' :: '"' :: rest => some (['"', '"'], rest)
  | '"' :: '"' :: '"' :: '"' :: rest => some (['"'], rest)
  | '"' :: '"' :: '"' :: rest => some ([], rest)
  | '\\' :: rest =>
      match hescape : escape? rest with
      | some (c, after) =>
          have := escape?_length hescape
          prepend c (multilineBasic? false after)
      | none => if endsLine rest then multilineBasic? true rest else none
  | '\n' :: rest =>
      if trimming then multilineBasic? true rest else prepend '\n' (multilineBasic? false rest)
  | '\r' :: '\n' :: rest =>
      if trimming then multilineBasic? true rest else prepend '\n' (multilineBasic? false rest)
  | c :: rest =>
      if trimming && isBlank c then multilineBasic? true rest
      else if isPlain c then prepend c (multilineBasic? false rest)
      else none
termination_by input.length

/-- The rest of a string in three single quotes. -/
def multilineLiteral? : List Char → Option (List Char × List Char)
  | [] => none
  | '\'' :: '\'' :: '\'' :: '\'' :: '\'' :: rest => some (['\'', '\''], rest)
  | '\'' :: '\'' :: '\'' :: '\'' :: rest => some (['\''], rest)
  | '\'' :: '\'' :: '\'' :: rest => some ([], rest)
  | '\r' :: '\n' :: rest => prepend '\n' (multilineLiteral? rest)
  | c :: rest => if isPlain c || c = '\n' then prepend c (multilineLiteral? rest) else none

/-- The text without a line end at its start. -/
def skipNewline (input : List Char) : List Char :=
  (newline? input).getD input

/-- Digits in groups with one underscore between them. -/
def digits? (isDigit : Char → Bool) (text : List Char) : Option (List Char) :=
  let groups := text.splitOn '_'
  if groups.all fun group => !group.isEmpty && group.all isDigit then some groups.flatten else none

/-- The number that digits of some base are written for. -/
def numberOf (base : Nat) (digits : List Char) : Nat :=
  digits.foldl (fun total c => base * total + (hexDigit? c).getD 0) 0

/-- A number in base ten. Only zero itself begins with the digit zero. -/
def decimal? (text : List Char) : Option Nat := do
  let digits ← digits? Char.isDigit text
  if digits.head? = some '0' ∧ digits.length ≠ 1 then none else some (numberOf 10 digits)

/-- An integer of 64 bits. A sign stands before base ten only. -/
def integer? (text : List Char) : Option Int := do
  let number ← match text with
    | '0' :: 'x' :: rest =>
        (digits? (fun c => (hexDigit? c).isSome) rest).map fun digits => (numberOf 16 digits : Int)
    | '0' :: 'o' :: rest =>
        (digits? (fun c => '0' ≤ c ∧ c ≤ '7') rest).map fun digits => (numberOf 8 digits : Int)
    | '0' :: 'b' :: rest =>
        (digits? (fun c => c = '0' ∨ c = '1') rest).map fun digits => (numberOf 2 digits : Int)
    | '+' :: rest => (decimal? rest).map fun number => (number : Int)
    | '-' :: rest => (decimal? rest).map fun number => -(number : Int)
    | rest => (decimal? rest).map fun number => (number : Int)
  if -0x8000000000000000 ≤ number ∧ number < 0x8000000000000000 then some number else none

end Caret.Toml
