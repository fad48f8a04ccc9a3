import Caret.Text.Split

/-! # Segments of a signature

A signature is cut at its dots. Dots at its end introduce no segment.
-/

namespace Caret.Chain

/-- The text before the last dot, if there is one. -/
def beforeLastDot (signature : List Char) : Option (List Char) :=
  (Text.splitLast '.' signature).map (·.1)

/-- The text before the last double colon, read from the left in pairs. -/
def beforeLastColons : List Char → Option (List Char)
  | [] => none
  | [_] => none
  | c :: d :: rest =>
      if c = ':' ∧ d = ':' then
        match beforeLastColons rest with
        | some before => some (':' :: ':' :: before)
        | none => some []
      else
        (beforeLastColons (d :: rest)).map (c :: ·)

/-- A signature without the dots at its end. -/
def withoutTrailingDots (signature : List Char) : List Char :=
  (signature.reverse.dropWhile (· = '.')).reverse

/-- The first segment. -/
def root (signature : List Char) : List Char :=
  (withoutTrailingDots signature).takeWhile (· ≠ '.')

/-- The segments after the root. -/
def chain (signature : List Char) : List Char :=
  ((withoutTrailingDots signature).dropWhile (· ≠ '.')).drop 1

/-- The segments between the root and the last one. -/
def baseChain (signature : List Char) : List Char :=
  (beforeLastDot (chain signature)).getD []

/-- A signature without its last segment. Double colons separate segments only
where there is no dot, and at the end of the signature they are taken off as
they stand. -/
def base (signature : List Char) : List Char :=
  match beforeLastDot signature with
  | some before => before
  | none =>
      if [':', ':'].isSuffixOf signature then signature.dropLast.dropLast
      else (beforeLastColons signature).getD []

end Caret.Chain
