import Caret.Cursor.Signature
import Caret.Proofs.Chain.Identifiers
import Caret.Proofs.Text.Lines
import Caret.Syntax.Rows

/-! # Whole words

What is said about the whole word at a cursor does not depend on where in the word the
cursor stands.
-/

namespace Caret.Cursor

open Text Chain

/-- A cursor in code, behind some character of a run of name characters. -/
structure InRun (cursor : Cursor) (run : Span) : Prop where
  isRun : cursor.buffer.code.IsRun run
  after : run.start < cursor.offset
  upTo : cursor.offset ≤ run.stop
  not_string : cursor.isString = false
  not_comment : cursor.isComment = false

/-- Whether two cursors agree in all that concerns the whole word. -/
structure SameWhole (left right : Cursor) : Prop where
  signatureStart : left.signatureStart = right.signatureStart
  wholeSignature : left.wholeSignature = right.wholeSignature
  wholeChain : left.wholeChain = right.wholeChain
  wholeWord : left.wholeWord = right.wholeWord
  wholeWordRange : left.wholeWordRange = right.wholeWordRange

theorem slice_eq_between (buffer : Buffer) (span : Span) :
    buffer.index.slice span = String.ofList (buffer.code.between span) :=
  rfl

theorem positionOf_eq_lineColumn {cursor : Cursor} {offset : Nat}
    (hle : offset ≤ cursor.buffer.size) :
    cursor.positionOf offset = cursor.buffer.index.lineColumn offset := by
  rw [positionOf, Index.positionOf_of_le hle]
  rfl

/-- Where the range of a word starts that starts at an offset. -/
def colonStart (chars : Array Char) (start : Nat) : Nat :=
  if 1 < start ∧ chars[start - 1]? = some ':' ∧ chars[start - 2]? ≠ some ':' then start - 1
  else start

theorem colonStart_le (chars : Array Char) (start : Nat) : colonStart chars start ≤ start := by
  unfold colonStart
  split <;> omega

namespace InRun

variable {cursor : Cursor} {run : Span} (hin : cursor.InRun run)
include hin

theorem mode_eq : cursor.mode = .normal := by
  have hliteral : cursor.literalAround = none :=
    Option.isNone_iff_eq_none.mp (Option.isSome_eq_false_iff.mp hin.not_string)
  rw [mode, hin.not_comment, hliteral]
  rfl

theorem exists_scan_eq : ∃ anchor, cursor.scan =
    (cursor.buffer.code.runScan run).withTail
      (cursor.buffer.code.between ⟨run.start + 1, cursor.offset⟩) anchor := by
  rw [scan, hin.mode_eq]
  exact Code.scan_run hin.isRun hin.after hin.upTo

theorem wordStart_eq :
    wordStart cursor.buffer.index.chars cursor.offset = (cursor.buffer.code.wordAround run).start :=
  wordStart_run hin.isRun hin.after hin.upTo

theorem wordEnd_eq :
    wordEnd cursor.buffer.index.chars cursor.offset = (cursor.buffer.code.wordAround run).stop :=
  wordEnd_run hin.isRun hin.after hin.upTo

theorem le_wordEnd : cursor.offset ≤ (cursor.buffer.code.wordAround run).stop := by
  rw [← hin.wordEnd_eq]
  exact le_runEnd _ _ _

theorem remainder_eq : cursor.remainder = String.ofList
    (cursor.buffer.code.between ⟨cursor.offset, (cursor.buffer.code.wordAround run).stop⟩) := by
  rw [remainder, hin.wordEnd_eq, slice_eq_between]

theorem signatureStart_eq : cursor.signatureStart = (cursor.buffer.code.runScan run).start := by
  obtain ⟨anchor, hscan⟩ := hin.exists_scan_eq
  rw [signatureStart, hscan]
  rfl

theorem wholeSignature_eq : cursor.wholeSignature = String.ofList
    ((cursor.buffer.code.runScan run).chars ++
      cursor.buffer.code.between ⟨run.start + 1, (cursor.buffer.code.wordAround run).stop⟩) := by
  obtain ⟨anchor, hscan⟩ := hin.exists_scan_eq
  rw [wholeSignature, signature, hscan, hin.remainder_eq, Signature.withTail, ← String.ofList_append,
    List.append_assoc, Code.between_append _ hin.after hin.le_wordEnd]

theorem wholeWord_eq : cursor.wholeWord =
    String.ofList (cursor.buffer.code.between (cursor.buffer.code.wordAround run)) := by
  have hstart := wordStart_le cursor.buffer.index.chars cursor.offset
  rw [hin.wordStart_eq] at hstart
  rw [wholeWord, word, hin.wordStart_eq, slice_eq_between, hin.remainder_eq, ← String.ofList_append,
    Code.between_append _ hstart hin.le_wordEnd]

theorem rangeStart_eq : cursor.rangeStart =
    colonStart cursor.buffer.index.chars (cursor.buffer.code.wordAround run).start := by
  rw [rangeStart, hin.wordStart_eq]
  rfl

theorem wholeWordRange_eq :
    let start := colonStart cursor.buffer.index.chars (cursor.buffer.code.wordAround run).start
    cursor.wholeWordRange = ⟨cursor.buffer.index.lineColumn start, cursor.buffer.index.lineColumn
      (max (cursor.buffer.code.wordAround run).stop start)⟩ := by
  intro start
  -- Neither end lies past the buffer, where offsets have no position.
  have hstart : start ≤ cursor.offset := by
    refine Nat.le_trans (colonStart_le _ _) ?_
    rw [← hin.wordStart_eq]
    exact wordStart_le _ _
  have hstop : (cursor.buffer.code.wordAround run).stop ≤ cursor.buffer.size := by
    rw [← hin.wordEnd_eq]
    exact runEnd_le_size cursor.offset_le
  have hoffset := cursor.offset_le
  rw [wholeWordRange, rangeUpTo, hin.wordEnd_eq, hin.rangeStart_eq,
    positionOf_eq_lineColumn (by omega), positionOf_eq_lineColumn (by omega)]

end InRun

/-- Cursors in the same run of name characters agree in all that concerns the whole word. -/
theorem sameWhole_of_inRun {left right : Cursor} (hbuffer : left.buffer = right.buffer) {run : Span}
    (hleft : left.InRun run) (hright : right.InRun run) : SameWhole left right := by
  have hsignature : left.wholeSignature = right.wholeSignature := by
    rw [hleft.wholeSignature_eq, hright.wholeSignature_eq, hbuffer]
  constructor
  · rw [hleft.signatureStart_eq, hright.signatureStart_eq, hbuffer]
  · exact hsignature
  · rw [wholeChain, wholeChain, hsignature]
  · rw [hleft.wholeWord_eq, hright.wholeWord_eq, hbuffer]
  · rw [hleft.wholeWordRange_eq, hright.wholeWordRange_eq, hbuffer]

/-- A method name with a mark, below a comment. -/
def marked : Buffer :=
  .ofParsed "# f(\nx.bar_baz?" ⟨.node ⟨"program", true, ⟨0, 15⟩, none⟩
    [.node ⟨"comment", true, ⟨0, 4⟩, none⟩ [], .node ⟨"call", true, ⟨5, 15⟩, none⟩
      [.node ⟨"identifier", true, ⟨5, 6⟩, some "receiver"⟩ [],
        .node ⟨".", false, ⟨6, 7⟩, some "operator"⟩ [],
        .node ⟨"identifier", true, ⟨7, 15⟩, some "method"⟩ []]], false⟩

/-- The cursor within the name and the cursor before the mark. -/
def withinName : Cursor :=
  ⟨marked, 9, by decide +kernel⟩

def beforeNameMark : Cursor :=
  ⟨marked, 14, by decide +kernel⟩

theorem sameWhole_of_inRun_marked :
    withinName.buffer = beforeNameMark.buffer ∧ withinName.InRun ⟨7, 14⟩ ∧
      beforeNameMark.InRun ⟨7, 14⟩ ∧ SameWhole withinName beforeNameMark := by
  have hisRun : marked.code.IsRun ⟨7, 14⟩ := by decide +kernel
  have hwithin : withinName.InRun ⟨7, 14⟩ :=
    ⟨hisRun, by decide, by decide, by decide +kernel, by decide +kernel⟩
  have hbefore : beforeNameMark.InRun ⟨7, 14⟩ :=
    ⟨hisRun, by decide, by decide, by decide +kernel, by decide +kernel⟩
  exact ⟨rfl, hwithin, hbefore, sameWhole_of_inRun rfl hwithin hbefore⟩

end Caret.Cursor
