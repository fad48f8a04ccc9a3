import Caret.Proofs.Chain.Lookahead
import Mathlib.Data.List.Count
import Mathlib.Order.Bounds.Defs

/-! # Where blanks and comments end

Blanks and comments are passed in rounds: the blanks first, and then the comment that follows
them. A run of blanks may reach into a comment and out of it again, so a round need not end where
a comment does. But behind every comment that is passed there is one comment less to come, which
bounds the number of rounds for any list of comments. If the comments stand in order, the last
round ends at the first place that is significant.
-/

namespace Caret.Chain.Code

open Text

/-- The rounds of passing blanks and comments from an offset: the number of comments that are
passed, and the place that is reached in the end. -/
inductive Passes (code : Code) : Nat → Nat → Nat → Prop
  | blanks {offset : Nat} (hnone : code.commentHolding (runEnd isBlank code.chars offset) = none) :
      Passes code offset 0 (runEnd isBlank code.chars offset)
  | comment {offset count place : Nat} {comment : Span}
      (hfound : code.commentHolding (runEnd isBlank code.chars offset) = some comment)
      (hrest : Passes code comment.stop count place) : Passes code offset (count + 1) place

/-- The number of comments that end behind an offset. -/
def commentsBehind (code : Code) (offset : Nat) : Nat :=
  code.comments.toList.countP (offset < ·.stop)

/-- A place where a search for a significant character has to stop: the end of the text, or a
character that is neither blank nor inside a comment. -/
def StopsAt (code : Code) (place : Nat) : Prop :=
  place = code.chars.size ∨ place < code.chars.size ∧ ¬ code.InGap place

variable {code : Code} {offset place : Nat}

theorem commentsBehind_le_size (code : Code) (offset : Nat) :
    code.commentsBehind offset ≤ code.comments.size :=
  List.countP_le_length

/-- Behind a comment there is at least one comment less to come than in front of its end. -/
theorem commentsBehind_stop_lt {comment : Span} (hmem : comment ∈ code.comments)
    (hlt : offset < comment.stop) :
    code.commentsBehind comment.stop < code.commentsBehind offset := by
  have hboth : code.commentsBehind comment.stop =
      (code.comments.toList.filter (offset < ·.stop)).countP (comment.stop < ·.stop) := by
    rw [commentsBehind, List.countP_filter]
    apply List.countP_congr
    intro other _
    simp only [Bool.and_eq_true, decide_eq_true_eq]
    exact ⟨fun hbehind => ⟨hbehind, Nat.lt_trans hlt hbehind⟩, And.left⟩
  have hpassed : comment ∈ code.comments.toList.filter (offset < ·.stop) := by
    simp [hmem, hlt]
  calc code.commentsBehind comment.stop
      = (code.comments.toList.filter (offset < ·.stop)).countP (comment.stop < ·.stop) := hboth
    _ < (code.comments.toList.filter (offset < ·.stop)).length :=
        List.countP_lt_length_iff.mpr ⟨comment, hpassed, by simp⟩
    _ = code.commentsBehind offset := List.countP_eq_length_filter.symm

/-- Passing blanks and comments comes to an end, whatever comments there are, and passes none of
them twice. -/
theorem exists_passes (code : Code) (offset : Nat) :
    ∃ count ≤ code.commentsBehind offset, code.Passes offset count (code.skipBlanks offset) := by
  fun_induction code.skipBlanks offset with
  | case1 offset next comment hfound _ ih =>
      obtain ⟨count, hcount, hpasses⟩ := ih
      have hnext : offset ≤ next := le_runEnd isBlank code.chars offset
      have hstop : offset < comment.stop :=
        Nat.lt_of_le_of_lt hnext (commentHolding_bounds hfound).2
      have hless := commentsBehind_stop_lt (mem_of_holding hfound) hstop
      exact ⟨count + 1, Nat.lt_of_le_of_lt hcount hless, .comment hfound hpasses⟩
  | case2 offset next hnone => exact ⟨0, Nat.zero_le _, .blanks hnone⟩

/-- What is blank or inside a comment lies in the text. -/
theorem OrderedComments.lt_size_of_inGap (hordered : code.OrderedComments)
    (hgap : code.InGap place) : place < code.chars.size := by
  rcases hgap with hblank | hcommented
  · obtain ⟨c, hc, -⟩ := (Option.any_eq_true _ _).mp hblank
    exact (Array.getElem?_eq_some_iff.mp hc).1
  · exact hordered.lt_size hcommented

theorem StopsAt.not_inGap (hordered : code.OrderedComments) (hstops : code.StopsAt place) :
    ¬ code.InGap place := by
  rcases hstops with rfl | ⟨-, hplace⟩
  · intro hgap
    exact absurd (hordered.lt_size_of_inGap hgap) (Nat.lt_irrefl _)
  · exact hplace

/-- No place to stop is passed. -/
theorem skipBlanks_le_of_stopsAt (hordered : code.OrderedComments) (hfrom : offset ≤ place)
    (hstops : code.StopsAt place) : code.skipBlanks offset ≤ place := by
  apply Nat.le_of_not_lt
  intro hlt
  exact hstops.not_inGap hordered (inGap_of_lt_skipBlanks hfrom hlt)

/-- Passing blanks and comments from an offset of the text ends after at most as many rounds as
there are comments, and it ends at the least place from there on that is the end of the text or
holds a character that is neither blank nor inside a comment. -/
theorem skipBlanks_isLeast (hordered : code.OrderedComments) (hoffset : offset ≤ code.chars.size) :
    (∃ count ≤ code.comments.size, code.Passes offset count (code.skipBlanks offset)) ∧
      IsLeast {place | offset ≤ place ∧ code.StopsAt place} (code.skipBlanks offset) := by
  constructor
  · obtain ⟨count, hcount, hpasses⟩ := exists_passes code offset
    exact ⟨count, Nat.le_trans hcount (commentsBehind_le_size code offset), hpasses⟩
  · refine ⟨⟨le_skipBlanks code offset, ?_⟩, fun place hplace => ?_⟩
    · have hsize := skipBlanks_le_of_stopsAt hordered hoffset (.inl rfl)
      rcases Nat.eq_or_lt_of_le hsize with hend | hlt
      · exact .inl hend
      · exact .inr ⟨hlt, not_inGap_skipBlanks hordered.inOrder offset⟩
    · exact skipBlanks_le_of_stopsAt hordered hplace.1 hplace.2

/-- A name, and comments behind it that follow each other directly: one made of blanks, an empty
one, and one that begins with a blank and is followed by a line feed and a dot. -/
def remarksInARow : Code :=
  ⟨"a     #b\n.c".toList.toArray, #[⟨2, 4⟩, ⟨4, 4⟩, ⟨4, 8⟩]⟩

theorem skipBlanks_isLeast_remarksInARow :
    remarksInARow.OrderedComments ∧ 1 ≤ remarksInARow.chars.size ∧
      (∃ count ≤ 3, remarksInARow.Passes 1 count 9) ∧
      IsLeast {place | 1 ≤ place ∧ remarksInARow.StopsAt place} 9 := by
  have hordered : remarksInARow.OrderedComments := by decide
  have hoffset : 1 ≤ remarksInARow.chars.size := by decide
  have hskip : remarksInARow.skipBlanks 1 = 9 := by decide +kernel
  obtain ⟨hpasses, hleast⟩ := skipBlanks_isLeast hordered hoffset
  rw [hskip] at hpasses hleast
  exact ⟨hordered, hoffset, hpasses, hleast⟩

end Caret.Chain.Code
