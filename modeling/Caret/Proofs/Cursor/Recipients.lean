import Caret.Cursor.Signature
import Caret.Proofs.Chain.Parentheses
import Caret.Syntax.Rows

/-! # Recipients

The recipients of a cursor, from the inside out, stand at the parentheses that are
open there. A single pass over the text before the cursor finds them all.
-/

namespace Caret.Cursor

open Chain

/-- The characters before a cursor. -/
def before (cursor : Cursor) : List Char :=
  cursor.buffer.text.toList.take cursor.offset

variable {cursor outer : Cursor}

/-- The parenthesis that holds a cursor is on top of the stack. -/
theorem openParen_eq_head? (hshort : cursor.buffer.size < 0x80000000) :
    cursor.openParen = (openParens cursor.before).head? := by
  have hoffset := cursor.offset_le
  rw [openParen, before]
  rw [Buffer.size, cursor.buffer.index_eq] at hoffset hshort
  rw [cursor.buffer.index_eq]
  exact openParenBefore_eq_head? hoffset hshort

/-- At the parenthesis that holds a cursor there is a cursor of the same buffer. -/
theorem recipient_of_openParen {offset : Nat} (hopen : cursor.openParen = some offset) :
    ∃ outer, cursor.recipient = some outer ∧ outer.buffer = cursor.buffer ∧
      outer.offset = offset := by
  have hoffset : offset ≤ cursor.buffer.size :=
    Nat.le_trans (Nat.le_of_lt (openParenBefore_lt hopen)) cursor.offset_le
  refine ⟨⟨cursor.buffer, offset, hoffset⟩, ?_, rfl, rfl⟩
  rw [recipient, hopen, Option.bind_some, Buffer.cursorAt, dif_pos hoffset]
  rfl

/-- Up to the limit of the counter, the recipients stand at the entries of the stack. -/
theorem offsets_recipients (hshort : cursor.buffer.size < 0x80000000) :
    cursor.recipients.map (·.offset) = openParens cursor.before := by
  have hhead := openParen_eq_head? hshort
  fun_induction recipients cursor with
  | case1 cursor hnone =>
      cases hopen : cursor.openParen with
      | none =>
          rw [hopen, eq_comm, List.head?_eq_none_iff] at hhead
          rw [hhead, List.map_nil]
      | some offset =>
          obtain ⟨outer, houter, -⟩ := recipient_of_openParen hopen
          rw [hnone] at houter
          contradiction
  | case2 cursor outer houter hlt ih =>
      cases hopen : cursor.openParen with
      | none =>
          rw [recipient, hopen] at houter
          contradiction
      | some offset =>
          obtain ⟨other, hother, hbuffer, rfl⟩ := recipient_of_openParen hopen
          obtain rfl := Option.some.inj (houter.symm.trans hother)
          rw [hopen, eq_comm, List.head?_eq_some_iff] at hhead
          obtain ⟨rest, hstack⟩ := hhead
          -- The text before the recipient leaves the rest of the stack.
          have hrest : openParens outer.before = rest := by
            have htop : (openParens cursor.before)[0]? = some outer.offset := by simp [hstack]
            have htake : outer.before = cursor.before.take outer.offset := by
              rw [before, before, hbuffer, List.take_take, Nat.min_eq_left (Nat.le_of_lt hlt)]
            rw [htake, openParens_take htop, hstack, List.drop_succ_cons, List.drop_zero]
          rw [← hbuffer] at hshort
          rw [List.map_cons, ih hshort (openParen_eq_head? hshort), hrest, hstack]

/-- The recipients of a cursor stand at the entries of the stack of open parentheses
before it, from the top down. The cursor stands in an argument list if the stack is
not empty, and each recipient stands left of the one before it. The buffer must be
too short for a counter to reach its limit. -/
theorem recipients_eq_openParens (hshort : cursor.buffer.size < 0x80000000) :
    cursor.recipients.map (·.offset) = openParens cursor.before ∧
      (cursor.isArgument ↔ openParens cursor.before ≠ []) ∧
      (cursor.offset :: cursor.recipients.map (·.offset)).Pairwise (· > ·) := by
  have hoffsets := offsets_recipients hshort
  refine ⟨hoffsets, ?_, ?_⟩
  · rw [isArgument, openParen_eq_head? hshort, List.isSome_head?]
  · rw [hoffsets, List.pairwise_cons]
    refine ⟨?_, pairwise_openParens _⟩
    intro offset hmem
    have hlt := lt_length_of_mem_openParens hmem
    rw [before, List.length_take] at hlt
    omega

/-- The cursor at the end of a text with two open calls, after a parenthesis that
closes nothing and a pair that is closed again. -/
def openCalls : Cursor where
  buffer := .ofParsed ")f(b(c),g(d" .nothing
  offset := 11
  offset_le := by decide +kernel

theorem recipients_eq_openParens_openCalls :
    openCalls.buffer.size < 0x80000000 ∧
      openCalls.recipients.map (·.offset) = openParens openCalls.before ∧
      (openCalls.isArgument ↔ openParens openCalls.before ≠ []) ∧
      (openCalls.offset :: openCalls.recipients.map (·.offset)).Pairwise (· > ·) :=
  have hshort : openCalls.buffer.size < 0x80000000 := by decide +kernel
  ⟨hshort, recipients_eq_openParens hshort⟩

example : openParens openCalls.before = [9, 2] := by decide +kernel

end Caret.Cursor
