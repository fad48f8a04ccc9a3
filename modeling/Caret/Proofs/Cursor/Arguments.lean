import Caret.Proofs.Chain.StrayParentheses
import Caret.Proofs.Cursor.Recipients

/-! # Arguments and comments

The parentheses in a comment count like those of code. A comment without stray ones goes
unnoticed. Any other may put the code after it into an argument list that is none, or take
it out of the one that it is in.
-/

namespace Caret.Cursor

open Chain

/-- The same offset in a buffer whose text is that of the cursor's with its comments blanked.
How that text is parsed does not matter. -/
structure Blanks (blank cursor : Cursor) : Prop where
  text : blank.buffer.text = String.ofList cursor.buffer.code.blanked.chars.toList
  offset : blank.offset = cursor.offset

/-- Whether two cursors stand in arguments of the same call, or both in none. -/
def SameArguments (left right : Cursor) : Prop :=
  left.isArgument = right.isArgument ∧
    left.recipient.map (·.offset) = right.recipient.map (·.offset)

instance (left right : Cursor) : Decidable (SameArguments left right) :=
  inferInstanceAs (Decidable (_ ∧ _))

variable {cursor blank : Cursor}

theorem offset_recipient (cursor : Cursor) : cursor.recipient.map (·.offset) = cursor.openParen := by
  cases hopen : cursor.openParen with
  | none => rw [recipient, hopen, Option.bind_none, Option.map_none]
  | some offset =>
      obtain ⟨outer, houter, -, hoffset⟩ := recipient_of_openParen hopen
      rw [houter, Option.map_some, hoffset]

theorem sameArguments_iff {left right : Cursor} :
    SameArguments left right ↔ left.openParen = right.openParen := by
  rw [SameArguments, offset_recipient, offset_recipient, isArgument, isArgument]
  exact ⟨And.right, fun hopen => ⟨congrArg Option.isSome hopen, hopen⟩⟩

theorem before_eq_take (cursor : Cursor) :
    cursor.before = cursor.buffer.code.chars.toList.take cursor.offset := by
  rw [before, Buffer.code, cursor.buffer.index_eq]
  rfl

namespace Blanks

variable (hblank : blank.Blanks cursor)
include hblank

theorem before_eq : blank.before =
    cursor.buffer.code.blanked.chars.toList.take cursor.offset := by
  rw [before, hblank.text, hblank.offset, String.toList_ofList]

theorem size_eq : blank.buffer.size = cursor.buffer.size := by
  have hchars : blank.buffer.index.chars = cursor.buffer.code.blanked.chars := by
    rw [blank.buffer.index_eq, Text.Index.ofString, hblank.text, String.toList_ofList]
  rw [Buffer.size, Text.Index.size, hchars]
  exact Code.size_blankedChars _

theorem sameArguments_iff_head? (hshort : cursor.buffer.size < 0x80000000) :
    SameArguments blank cursor ↔
      (openParens (cursor.buffer.code.blanked.chars.toList.take cursor.offset)).head? =
        (openParens (cursor.buffer.code.chars.toList.take cursor.offset)).head? := by
  rw [sameArguments_iff, openParen_eq_head? hshort, before_eq_take,
    openParen_eq_head? (hblank.size_eq ▸ hshort), hblank.before_eq]

end Blanks

/-- Comments whose parentheses match do not change in whose arguments a cursor stands. If
only the last comment before the cursor has stray ones, and the code after it has none, then
it goes unnoticed just if it opens no parenthesis, and closes none that is open where it
starts. The buffer must be too short for a counter to reach its limit. -/
theorem sameArguments_blanked (hshort : cursor.buffer.size < 0x80000000)
    (hordered : cursor.buffer.code.OrderedComments)
    (hcode : cursor.buffer.inComment cursor.offset = false) (hblank : blank.Blanks cursor) :
    ((∀ comment ∈ cursor.buffer.comments, comment.stop ≤ cursor.offset →
        Matched (cursor.buffer.code.between comment)) → SameArguments blank cursor) ∧
      ∀ comment ∈ cursor.buffer.comments, comment.stop ≤ cursor.offset →
        (∀ earlier ∈ cursor.buffer.comments, earlier.stop ≤ comment.start →
          Matched (cursor.buffer.code.between earlier)) →
        (∀ later ∈ cursor.buffer.comments, comment.stop ≤ later.start →
          cursor.offset ≤ later.start) →
        Matched (cursor.buffer.code.between ⟨comment.stop, cursor.offset⟩) →
        (SameArguments blank cursor ↔
          openParens (cursor.buffer.code.between comment) = [] ∧
            (strayClosers 0 (cursor.buffer.code.between comment) = 0 ∨
              openParens (cursor.buffer.code.between ⟨0, comment.start⟩) = [])) := by
  rw [hblank.sameArguments_iff_head? hshort]
  constructor
  · intro hmatched
    rw [Code.openParens_take_blanked hordered ?_ hmatched]
    intro comment hmem
    have hapart : ¬ (comment.start < cursor.offset ∧ cursor.offset ≤ comment.stop) := by
      simpa using Array.any_eq_false'.mp hcode comment hmem
    omega
  · intro comment hmem hstop hearlier hlast hafter
    obtain ⟨hwithout, hwith⟩ :=
      Code.openParens_take_of_last hordered hmem hstop hearlier hlast hafter
    rw [hwithout, hwith, Code.between_zero, eq_comm]
    exact head?_openParens_append_iff _ _

/-- The second line of an open call, after a comment with a pair of parentheses. -/
def afterRemark : Cursor where
  buffer := .ofParsed "g(a, # (1)\nb" ⟨.node ⟨"program", true, ⟨0, 12⟩, none⟩
    [.node ⟨"ERROR", true, ⟨0, 4⟩, none⟩ [], .node ⟨"comment", true, ⟨5, 10⟩, none⟩ [],
      .node ⟨"identifier", true, ⟨11, 12⟩, none⟩ []], true⟩
  offset := 12
  offset_le := by decide +kernel

/-- The same place without the comment. -/
def afterBlanks : Cursor where
  buffer := .ofParsed "g(a,      \nb" .nothing
  offset := 12
  offset_le := by decide +kernel

theorem sameArguments_blanked_after_remark :
    afterRemark.buffer.size < 0x80000000 ∧ afterRemark.buffer.code.OrderedComments ∧
      afterRemark.buffer.inComment afterRemark.offset = false ∧
      afterBlanks.Blanks afterRemark ∧
      (∀ comment ∈ afterRemark.buffer.comments, comment.stop ≤ afterRemark.offset →
        Matched (afterRemark.buffer.code.between comment)) ∧
      SameArguments afterBlanks afterRemark := by
  have hshort : afterRemark.buffer.size < 0x80000000 := by decide +kernel
  have hordered : afterRemark.buffer.code.OrderedComments := by decide +kernel
  have hcode : afterRemark.buffer.inComment afterRemark.offset = false := by decide +kernel
  have hblank : afterBlanks.Blanks afterRemark := ⟨by decide +kernel, rfl⟩
  have hmatched : ∀ comment ∈ afterRemark.buffer.comments, comment.stop ≤ afterRemark.offset →
      Matched (afterRemark.buffer.code.between comment) := by decide +kernel
  exact ⟨hshort, hordered, hcode, hblank, hmatched,
    (sameArguments_blanked hshort hordered hcode hblank).1 hmatched⟩

/-- A name below a comment that opens a parenthesis. -/
def belowOpener : Cursor where
  buffer := .ofParsed "# (\nfoo" ⟨.node ⟨"program", true, ⟨0, 7⟩, none⟩
    [.node ⟨"comment", true, ⟨0, 3⟩, none⟩ [], .node ⟨"identifier", true, ⟨4, 7⟩, none⟩ []], false⟩
  offset := 7
  offset_le := by decide +kernel

/-- The same name below a blank line. -/
def belowBlanks : Cursor where
  buffer := .ofParsed "   \nfoo" .nothing
  offset := 7
  offset_le := by decide +kernel

/-- A comment may put code into an argument list: the name in the second line of a text counts
as an argument since the comment in the first line opens a parenthesis. -/
theorem not_forall_sameArguments :
    ¬ ∀ cursor blank : Cursor, cursor.buffer.code.OrderedComments →
      cursor.buffer.inComment cursor.offset = false → blank.Blanks cursor →
      SameArguments blank cursor := by
  intro hall
  have hblank : belowBlanks.Blanks belowOpener := ⟨by decide +kernel, rfl⟩
  have hsame := hall belowOpener belowBlanks (by decide +kernel) (by decide +kernel) hblank
  have hdiffer : ¬ SameArguments belowBlanks belowOpener := by decide +kernel
  exact hdiffer hsame

end Caret.Cursor
