import Caret.Text.Character
import Caret.Text.Span

/-! # Characters and the comments among them

The text of a comment counts as white space. Comments are kept in the order of
their ends, so the one that may hold a character is found by halving.
-/

namespace Caret.Chain

open Text

/-- The characters of a buffer and the spans of its comments, ordered by end. -/
structure Code where
  chars : Array Char
  comments : Array Span

namespace Code

/-- The comment that holds the character at an offset. -/
def commentHolding (code : Code) (index : Nat) : Option Span :=
  holding code.comments index

/-- The largest end of a comment. -/
def commentsEnd (code : Code) : Nat :=
  code.comments.foldr (fun comment reach => max comment.stop reach) 0

theorem commentHolding_bounds {code : Code} {index : Nat} {comment : Span}
    (hcomment : code.commentHolding index = some comment) :
    comment.start ≤ index ∧ index < comment.stop :=
  bounds_of_holding hcomment

theorem stop_le_commentsEnd {code : Code} {comment : Span} (hmem : comment ∈ code.comments) :
    comment.stop ≤ code.commentsEnd := by
  obtain ⟨chars, ⟨comments⟩⟩ := code
  simp only [commentsEnd, List.mem_toArray, List.foldr_toArray] at hmem ⊢
  induction comments with
  | nil => simp at hmem
  | cons first rest ih =>
      rcases List.mem_cons.mp hmem with rfl | hrest
      · exact Nat.le_max_left _ _
      · exact Nat.le_trans (ih hrest) (Nat.le_max_right _ _)

/-- The first offset from `offset` on that is neither blank nor inside a
comment. Each round passes a run of blanks and the comment after it, if any. -/
def skipBlanks (code : Code) (offset : Nat) : Nat :=
  let next := runEnd isBlank code.chars offset
  match hcomment : code.commentHolding next with
  | some comment =>
      have : code.commentsEnd - comment.stop < code.commentsEnd - offset := by
        have hstop := stop_le_commentsEnd (mem_of_holding hcomment)
        have hholds := commentHolding_bounds hcomment
        have hnext : offset ≤ next := le_runEnd isBlank code.chars offset
        omega
      code.skipBlanks comment.stop
  | none => next
termination_by code.commentsEnd - offset

/-- Whether the first significant character from `offset` on is a dot, so that
a chain goes on there. -/
def continuesChain (code : Code) (offset : Nat) : Bool :=
  code.chars[code.skipBlanks offset]? = some '.'

/-- Whether the character `distance` places before `index` is `c`. -/
def hasBefore (code : Code) (index distance : Nat) (c : Char) : Bool :=
  distance ≤ index && code.chars[index - distance]? = some c

end Code

end Caret.Chain
