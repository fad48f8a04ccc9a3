import Caret.Proofs.Cursor.WordRanges

/-! # What is cut out of a buffer

Whatever the tree, the comments and the symbols are, all offsets that are computed at a cursor
lie in the buffer and in order. So the texts that are cut out between them are complete, all
these offsets have positions, and there is a cursor at every parenthesis that is found.
-/

namespace Caret.Text.Index

/-- Whether a piece of the text stands just in a span, which then lies in the text and does not
end before it starts. -/
def Holds (index : Index) (span : Span) (piece : String) : Prop :=
  ∃ front rest, index.chars.toList = front ++ piece.toList ++ rest ∧
    front.length = span.start ∧ (front ++ piece.toList).length = span.stop

theorem holds_slice {index : Index} {span : Span} (hle : span.start ≤ span.stop)
    (hsize : span.stop ≤ index.size) : index.Holds span (index.slice span) := by
  have hlength : (index.chars.toList.take span.stop).length = span.stop := by
    rw [List.length_take, Array.length_toList]
    exact Nat.min_eq_left hsize
  have hsplit : index.chars.toList.take span.stop =
      index.chars.toList.take span.start ++ (index.slice span).toList := by
    rw [slice, String.toList_ofList]
    exact Chain.Code.take_eq_append_between ⟨index.chars, #[]⟩ hle
  refine ⟨index.chars.toList.take span.start, index.chars.toList.drop span.stop, ?_, ?_, ?_⟩
  · rw [← hsplit, List.take_append_drop]
  · rw [List.length_take, Array.length_toList]
    exact Nat.min_eq_left (Nat.le_trans hle hsize)
  · rw [← hsplit, hlength]

end Caret.Text.Index

namespace Caret.Chain.Code

/-- A signature does not start behind the offset where it ends. -/
theorem scan_start_le (code : Code) (offset : Nat) (mode : Mode) :
    (code.scan offset mode).start ≤ offset := by
  have hcursor : min offset code.chars.size ≤ offset := Nat.min_le_left _ _
  cases mode with
  | normal => exact Nat.le_trans (Nat.min_le_right _ _) hcursor
  | whitespace => exact Nat.le_trans (Nat.min_le_right _ _) hcursor
  | comment => exact hcursor
  | string floor => exact Nat.le_trans (Nat.min_le_right _ _) hcursor

end Caret.Chain.Code

namespace Caret.Cursor

open Text Chain

/-- Where the word at a cursor stops, behind the cursor. -/
def stop (cursor : Cursor) : Nat :=
  wordEnd cursor.buffer.index.chars cursor.offset

/-- From the start of the signature through the character behind the cursor. -/
def phraseSpan (cursor : Cursor) : Span :=
  ⟨cursor.signatureStart, min (cursor.offset + 1) cursor.buffer.size⟩

/-- Whether no offset at a cursor lies outside the buffer or on the wrong side of another, so
that nothing has to stand in for a text, a position or a recipient. -/
structure Exact (cursor : Cursor) : Prop where
  signatureStart_le : cursor.signatureStart ≤ cursor.offset
  start_le : cursor.start ≤ cursor.offset
  rangeStart_le : cursor.rangeStart ≤ cursor.offset
  le_stop : cursor.offset ≤ cursor.stop
  stop_le : cursor.stop ≤ cursor.buffer.size
  phrase : cursor.buffer.index.Holds cursor.phraseSpan cursor.phrase
  word : cursor.buffer.index.Holds ⟨cursor.start, cursor.offset⟩ cursor.word
  remainder : cursor.buffer.index.Holds ⟨cursor.offset, cursor.stop⟩ cursor.remainder
  wordRange_start : cursor.buffer.index.positionOf cursor.rangeStart = .ok cursor.wordRange.start
  wordRange_stop : cursor.buffer.index.positionOf cursor.offset = .ok cursor.wordRange.stop
  wholeWordRange_start :
    cursor.buffer.index.positionOf cursor.rangeStart = .ok cursor.wholeWordRange.start
  wholeWordRange_stop : cursor.buffer.index.positionOf cursor.stop = .ok cursor.wholeWordRange.stop
  recipient : ∀ paren, cursor.openParen = some paren →
    ∃ outer, cursor.recipient = some outer ∧ outer.buffer = cursor.buffer ∧ outer.offset = paren

variable {cursor : Cursor} {offset : Nat}

theorem signatureStart_le (cursor : Cursor) : cursor.signatureStart ≤ cursor.offset :=
  Code.scan_start_le _ _ _

theorem le_stop (cursor : Cursor) : cursor.offset ≤ cursor.stop :=
  le_runEnd _ _ _

theorem stop_le (cursor : Cursor) : cursor.stop ≤ cursor.buffer.size :=
  runEnd_le_size cursor.offset_le

theorem phraseSpan_start_le_stop (cursor : Cursor) :
    cursor.phraseSpan.start ≤ cursor.phraseSpan.stop :=
  Nat.le_min.mpr ⟨Nat.le_succ_of_le cursor.signatureStart_le,
    Nat.le_trans cursor.signatureStart_le cursor.offset_le⟩

/-- Every offset in the buffer has the position that is given for it. -/
theorem positionOf_eq_ok (hle : offset ≤ cursor.buffer.size) :
    cursor.buffer.index.positionOf offset = .ok (cursor.positionOf offset) := by
  rw [positionOf_eq_lineColumn hle, Index.positionOf_of_le hle]

/-- The range up to an offset behind the cursor has the positions of its two ends. -/
theorem positionOf_rangeUpTo (hfrom : cursor.offset ≤ offset) (hto : offset ≤ cursor.buffer.size) :
    cursor.buffer.index.positionOf cursor.rangeStart = .ok (cursor.rangeUpTo offset).start ∧
      cursor.buffer.index.positionOf offset = .ok (cursor.rangeUpTo offset).stop := by
  have hstart := Nat.le_trans cursor.rangeStart_le hfrom
  rw [rangeUpTo, Nat.max_eq_left hstart]
  exact ⟨positionOf_eq_ok (Nat.le_trans hstart hto), positionOf_eq_ok hto⟩

theorem exact_of_cursor (cursor : Cursor) : cursor.Exact := by
  have hword := positionOf_rangeUpTo (Nat.le_refl cursor.offset) cursor.offset_le
  have hwhole := positionOf_rangeUpTo cursor.le_stop cursor.stop_le
  exact {
    signatureStart_le := cursor.signatureStart_le
    start_le := cursor.start_le
    rangeStart_le := cursor.rangeStart_le
    le_stop := cursor.le_stop
    stop_le := cursor.stop_le
    phrase := Index.holds_slice cursor.phraseSpan_start_le_stop (Nat.min_le_right _ _)
    word := Index.holds_slice cursor.start_le cursor.offset_le
    remainder := Index.holds_slice cursor.le_stop cursor.stop_le
    wordRange_start := hword.1
    wordRange_stop := hword.2
    wholeWordRange_start := hwhole.1
    wholeWordRange_stop := hwhole.2
    recipient := fun _ hopen => recipient_of_openParen hopen }

end Caret.Cursor
