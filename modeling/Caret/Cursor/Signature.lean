import Caret.Chain.Argument
import Caret.Chain.Scan
import Caret.Chain.Segments
import Caret.Cursor.Surroundings
import Caret.Cursor.Word

/-! # The signature at a cursor -/

namespace Caret.Cursor

open Text

/-- The scan to the left of the cursor. -/
def scan (cursor : Cursor) : Chain.Signature :=
  cursor.buffer.code.scan cursor.offset cursor.mode

def signature (cursor : Cursor) : String :=
  String.ofList cursor.scan.chars

/-- The offset at which the source text of the signature begins. -/
def signatureStart (cursor : Cursor) : Nat :=
  cursor.scan.start

/-- The signature without its last segment. -/
def base (cursor : Cursor) : String :=
  String.ofList (Chain.base cursor.scan.chars)

/-- The first segment of the signature. -/
def root (cursor : Cursor) : String :=
  String.ofList (Chain.root cursor.scan.chars)

/-- The segments after the first. -/
def chain (cursor : Cursor) : String :=
  String.ofList (Chain.chain cursor.scan.chars)

/-- The segments between the first and the last. -/
def baseChain (cursor : Cursor) : String :=
  String.ofList (Chain.baseChain cursor.scan.chars)

/-- The signature together with the rest of the word. -/
def wholeSignature (cursor : Cursor) : String :=
  cursor.signature ++ cursor.remainder

def wholeChain (cursor : Cursor) : String :=
  String.ofList (Chain.chain cursor.wholeSignature.toList)

/-- The source text from the start of the signature through the character after
the cursor. -/
def phrase (cursor : Cursor) : String :=
  cursor.buffer.index.slice
    ⟨cursor.signatureStart, min (cursor.offset + 1) cursor.buffer.size⟩

/-- The parenthesis whose argument list holds the cursor. -/
def openParen (cursor : Cursor) : Option Nat :=
  Chain.openParenBefore cursor.buffer.index.chars cursor.offset

def isArgument (cursor : Cursor) : Bool :=
  cursor.openParen.isSome

/-- The cursor at the parenthesis whose argument list holds this one. Its
signature is that of the call being made. -/
def recipient (cursor : Cursor) : Option Cursor :=
  cursor.openParen.bind fun offset => (cursor.buffer.cursorAt offset).toOption

theorem recipient_offset_lt {cursor outer : Cursor} (houter : cursor.recipient = some outer) :
    outer.offset < cursor.offset := by
  obtain ⟨offset, hopen, hcursor⟩ := Option.bind_eq_some_iff.mp houter
  have hlt := Chain.openParenBefore_lt hopen
  have heq : outer.offset = offset := by
    simp only [Buffer.cursorAt] at hcursor
    split at hcursor
    · obtain rfl := Option.some.inj hcursor
      rfl
    · simp [Except.toOption] at hcursor
  omega

/-- The recipients of a cursor from the inside out. -/
def recipients (cursor : Cursor) : List Cursor :=
  match houter : cursor.recipient with
  | none => []
  | some outer =>
      have := recipient_offset_lt houter
      outer :: outer.recipients
termination_by cursor.offset

end Caret.Cursor
