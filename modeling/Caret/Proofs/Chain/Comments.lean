import Caret.Chain.Code
import Caret.Proofs.Text.SpanOrder

/-! # Comments in order

If comments stand in order and apart, looking one up finds the comment around an
offset whenever there is one. Skipping blanks then never passes a character that
is neither blank nor in a comment.
-/

namespace Caret.Chain

open Text

namespace Code

/-- The comments of a text as a parser reports them: each lies in the text, and
ends before the next one starts. -/
structure OrderedComments (code : Code) : Prop where
  inside : ∀ comment ∈ code.comments,
    comment.start ≤ comment.stop ∧ comment.stop ≤ code.chars.size
  apart : code.comments.toList.Pairwise (·.stop ≤ ·.start)

instance (code : Code) : Decidable code.OrderedComments :=
  decidable_of_iff ((∀ comment ∈ code.comments,
      comment.start ≤ comment.stop ∧ comment.stop ≤ code.chars.size) ∧
      code.comments.toList.Pairwise (·.stop ≤ ·.start))
    ⟨fun h => ⟨h.1, h.2⟩, fun h => ⟨h.1, h.2⟩⟩

/-- A character that is neither blank nor in a comment. -/
def Significant (code : Code) (offset : Nat) : Prop :=
  code.chars[offset]?.any (!isBlank ·) ∧ code.commentHolding offset = none

variable {code : Code}

theorem OrderedComments.inOrder (hordered : code.OrderedComments) : InOrder code.comments where
  start_le_stop comment hmem := (hordered.inside comment hmem).1
  apart := hordered.apart

/-- Looking up a comment finds the one that holds the offset. -/
theorem commentHolding_of_contains (hinorder : InOrder code.comments) {comment : Span}
    (hmem : comment ∈ code.comments) {offset : Nat} (hholds : comment.contains offset) :
    code.commentHolding offset = some comment :=
  hinorder.holding_of_contains hmem hholds

theorem runEnd_le {inClass : Char → Bool} {chars : Array Char} {offset last : Nat}
    (hle : offset ≤ last) (hlast : chars[last]?.any (!inClass ·)) :
    runEnd inClass chars offset ≤ last := by
  fun_induction runEnd inClass chars offset with
  | case1 offset hlt hclass ih =>
      rcases Nat.lt_or_eq_of_le hle with hless | rfl
      · exact ih hless
      · simp [Array.getElem?_eq_getElem hlt, hclass] at hlast
  | case2 offset hlt hclass => exact hle
  | case3 offset hlt => exact hle

/-- Skipping blanks and comments stops at the latest at a character that is not blank and
that no comment holds. -/
theorem skipBlanks_le_of_apart {offset last : Nat} (hle : offset ≤ last)
    (hlast : code.chars[last]?.any (!isBlank ·))
    (hapart : ∀ comment ∈ code.comments, ¬ comment.contains last) :
    code.skipBlanks offset ≤ last := by
  fun_induction code.skipBlanks offset with
  | case1 offset next comment hcomment hless ih =>
      refine ih ?_
      have hnext : next ≤ last := runEnd_le hle hlast
      have hbounds := commentHolding_bounds hcomment
      refine Nat.le_of_not_lt fun hpast => hapart comment (mem_of_holding hcomment) ?_
      exact Span.contains_iff.mpr ⟨Nat.le_trans hbounds.1 hnext, hpast⟩
  | case2 offset next hnone => exact runEnd_le hle hlast

/-- Skipping blanks and comments stops at the latest at a significant character. -/
theorem skipBlanks_le (hordered : code.OrderedComments) {offset last : Nat} (hle : offset ≤ last)
    (hlast : code.Significant last) : code.skipBlanks offset ≤ last := by
  refine skipBlanks_le_of_apart hle hlast.1 fun comment hmem hholds => ?_
  have hfound := commentHolding_of_contains hordered.inOrder hmem hholds
  rw [hlast.2] at hfound
  contradiction

end Code

end Caret.Chain
