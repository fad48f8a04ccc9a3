import Caret.Text.Position

/-! # Reasons why a request fails

Only requests that cannot be answered at all fail. A fact that a text does not
have, such as a signature where there is none, is an empty or absent value.
-/

namespace Caret

/-- Why a request failed. Texts that come from outside, such as those of the
file system, are carried as they are. -/
inductive Failure where
  | fileNotFound (path : String)
  | fileTooLarge (path : String) (size limit : Nat)
  | invalidLocation (input reason : String)
  | io (reason : String)
  | json (reason : String)
  | offsetOutOfBounds (length offset : Nat)
  | parseFailed (path reason : String)
  | positionOutOfBounds (position : Text.Position)
  | toml (reason : String)
  | unsupportedLanguage (path : String)
deriving DecidableEq, Repr

namespace Failure

/-- The failure on one line. -/
def message : Failure → String
  | fileNotFound path => s!"file not found: {path}"
  | fileTooLarge path size limit => s!"file too large ({size} bytes, max {limit}): {path}"
  | invalidLocation input reason => "invalid location `" ++ input ++ "`: " ++ reason
  | io reason => s!"io: {reason}"
  | json reason => s!"json: {reason}"
  | offsetOutOfBounds length offset =>
      s!"offset {offset} out of bounds (buffer has {length} characters)"
  | parseFailed path reason => s!"parse failed: {path}: {reason}"
  | positionOutOfBounds position =>
      "position " ++ toString position.line ++ ":" ++ toString position.column ++ " out of bounds"
  | toml reason => s!"toml deserialize: {reason}"
  | unsupportedLanguage path => s!"no grammar for file: {path}"

/-- Whether a place outside the text was asked for. -/
def isOutOfBounds : Failure → Bool
  | offsetOutOfBounds .. | positionOutOfBounds .. => true
  | _ => false

end Failure

end Caret
