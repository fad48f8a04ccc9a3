import Caret.Proofs.Chain.Comments
import Caret.Proofs.Chain.Spans
import Caret.Proofs.Text.Runs

/-! # Texts with their comments blanked

That the text of a comment counts as white space is said by a second text, in which a
space stands in place of every character of a comment and nothing is a comment.
-/

namespace Caret.Chain

open Text

namespace Code

/-- Whether a comment holds the character at an offset. -/
def commented (code : Code) (index : Nat) : Bool :=
  code.comments.any (·.contains index)

/-- The characters, with a space in place of each one that a comment holds. -/
def blankedChars (code : Code) : Array Char :=
  code.chars.mapIdx fun index c => if code.commented index then ' ' else c

/-- The text in which the comments are blanked. -/
def blanked (code : Code) : Code :=
  ⟨code.blankedChars, #[]⟩

/-- Whether every comment goes to the end of its line or of the text. -/
def LineComments (code : Code) : Prop :=
  ∀ comment ∈ code.comments,
    comment.stop = code.chars.size ∨ code.chars[comment.stop]? = some '\n'

instance (code : Code) : Decidable code.LineComments :=
  inferInstanceAs (Decidable (∀ comment ∈ code.comments, _ ∨ _))

variable {code : Code} {index : Nat}

theorem commented_iff : code.commented index ↔ ∃ comment ∈ code.comments, comment.contains index :=
  Array.any_eq_true'

theorem not_commented_iff :
    code.commented index = false ↔ ∀ comment ∈ code.comments, ¬ comment.contains index := by
  simp [← Bool.not_eq_true, commented_iff]

theorem commentHolding_eq_none (hcode : code.commented index = false) :
    code.commentHolding index = none := by
  cases hfound : code.commentHolding index with
  | none => rfl
  | some comment =>
      have hholds := Span.contains_iff.mpr (commentHolding_bounds hfound)
      exact absurd hholds (not_commented_iff.mp hcode comment (mem_of_holding hfound))

/-- Looking up a comment finds one just at the characters that comments hold. -/
theorem commentHolding_eq_none_iff (hinorder : InOrder code.comments) :
    code.commentHolding index = none ↔ code.commented index = false := by
  refine ⟨fun hnone => not_commented_iff.mpr fun comment hmem hholds => ?_, commentHolding_eq_none⟩
  rw [commentHolding_of_contains hinorder hmem hholds] at hnone
  contradiction

@[simp]
theorem size_blankedChars (code : Code) : code.blankedChars.size = code.chars.size := by
  simp [blankedChars]

theorem getElem?_blankedChars_of_commented (hlt : index < code.chars.size)
    (hcommented : code.commented index) : code.blankedChars[index]? = some ' ' := by
  simp [blankedChars, hlt, hcommented]

theorem getElem?_blankedChars (hcommented : code.commented index = false) :
    code.blankedChars[index]? = code.chars[index]? := by
  simp [blankedChars, hcommented]

theorem OrderedComments.lt_size (hordered : code.OrderedComments)
    (hcommented : code.commented index) : index < code.chars.size := by
  obtain ⟨comment, hmem, hholds⟩ := commented_iff.mp hcommented
  exact Nat.lt_of_lt_of_le (Span.contains_iff.mp hholds).2 (hordered.inside comment hmem).2

/-- Of two comments one ends before the other starts. -/
theorem OrderedComments.eq_or_apart (hordered : code.OrderedComments) {left right : Span}
    (hleft : left ∈ code.comments) (hright : right ∈ code.comments) :
    left = right ∨ left.stop ≤ right.start ∨ right.stop ≤ left.start := by
  obtain ⟨first, hfirst, rfl⟩ := Array.mem_iff_getElem.mp hleft
  obtain ⟨second, hsecond, rfl⟩ := Array.mem_iff_getElem.mp hright
  rcases Nat.lt_trichotomy first second with hlt | rfl | hlt
  · exact .inr (.inl (hordered.inOrder.stop_le_start hlt hsecond))
  · exact .inl rfl
  · exact .inr (.inr (hordered.inOrder.stop_le_start hlt hfirst))

/-- No comment goes on where one starts. -/
theorem OrderedComments.outside_start (hordered : code.OrderedComments) {comment : Span}
    (hmem : comment ∈ code.comments) :
    ∀ other ∈ code.comments, other.stop ≤ comment.start ∨ comment.start ≤ other.start := by
  intro other hother
  have hinside := (hordered.inside comment hmem).1
  rcases hordered.eq_or_apart hmem hother with rfl | hbehind | hapart
  · exact .inr (Nat.le_refl _)
  · exact .inr (Nat.le_trans hinside hbehind)
  · exact .inl hapart

/-- Blanking keeps blanks and makes blanks of comments. -/
theorem isBlank_blankedChars (hordered : code.OrderedComments)
    (hblank : code.chars[index]?.any isBlank ∨ code.commented index) :
    code.blankedChars[index]?.any isBlank := by
  cases hcommented : code.commented index with
  | true =>
      rw [getElem?_blankedChars_of_commented (hordered.lt_size hcommented) hcommented]
      rfl
  | false =>
      rw [getElem?_blankedChars hcommented]
      simpa [hcommented] using hblank

/-- Within a line a comment does not end. -/
theorem stop_ne_of_within_line (hlines : code.LineComments) {c : Char} {comment : Span}
    (hmem : comment ∈ code.comments) (hc : code.chars[index]? = some c) (hline : c ≠ '\n') :
    comment.stop ≠ index := by
  rintro rfl
  rcases hlines comment hmem with hend | hfeed
  · rw [hend, Array.getElem?_size] at hc
    contradiction
  · exact hline (Option.some.inj (hc.symm.trans hfeed))

theorem not_commented_before (hlines : code.LineComments) {c : Char}
    (hc : code.chars[index + 1]? = some c) (hline : c ≠ '\n')
    (hcode : code.commented (index + 1) = false) : code.commented index = false := by
  rw [not_commented_iff] at hcode ⊢
  intro comment hmem hholds
  have hapart := hcode comment hmem
  have hstop := stop_ne_of_within_line hlines hmem hc hline
  rw [Span.contains_iff] at hholds hapart
  omega

theorem commentHolding_blanked (code : Code) (index : Nat) :
    code.blanked.commentHolding index = none := by
  simp [commentHolding, holding, blanked]

theorem le_skipBlanks (code : Code) (offset : Nat) : offset ≤ code.skipBlanks offset := by
  fun_induction code.skipBlanks offset with
  | case1 offset next comment hfound hless ih =>
      have hnext : offset ≤ next := le_runEnd isBlank code.chars offset
      have hbounds := commentHolding_bounds hfound
      omega
  | case2 offset next hnone => exact le_runEnd isBlank code.chars offset

/-- What is skipped is blank or belongs to a comment. -/
theorem blank_or_commented_of_lt_skipBlanks {offset : Nat} (hfrom : offset ≤ index)
    (hto : index < code.skipBlanks offset) :
    code.chars[index]?.any isBlank ∨ code.commented index := by
  fun_induction code.skipBlanks offset with
  | case1 offset next comment hfound hless ih =>
      obtain ⟨hstart, hstop⟩ := commentHolding_bounds hfound
      by_cases hbefore : index < next
      · exact .inl (class_of_lt_runEnd hfrom hbefore)
      · by_cases hinside : index < comment.stop
        · have hholds : comment.contains index := Span.contains_iff.mpr ⟨by omega, hinside⟩
          exact .inr (commented_iff.mpr ⟨comment, mem_of_holding hfound, hholds⟩)
        · exact ih (Nat.le_of_not_lt hinside) hto
  | case2 offset next hnone => exact .inl (class_of_lt_runEnd hfrom hto)

/-- Where blanks and comments end there is no blank. -/
theorem not_blank_skipBlanks (code : Code) (offset : Nat) :
    code.chars[code.skipBlanks offset]?.any isBlank = false := by
  fun_induction code.skipBlanks offset with
  | case1 offset next comment hfound hless ih => exact ih
  | case2 offset next hnone => exact not_class_runEnd isBlank code.chars offset

/-- Where blanks and comments end, no comment holds the character. -/
theorem not_commented_skipBlanks (hinorder : InOrder code.comments) (offset : Nat) :
    code.commented (code.skipBlanks offset) = false := by
  fun_induction code.skipBlanks offset with
  | case1 offset next comment hfound hless ih => exact ih
  | case2 offset next hnone => exact (commentHolding_eq_none_iff hinorder).mp hnone

/-- To skip blanks and comments is to skip blanks where the comments are blanked. -/
theorem skipBlanks_eq_runEnd (hordered : code.OrderedComments) (offset : Nat) :
    code.skipBlanks offset = runEnd isBlank code.blankedChars offset := by
  have hskipped : runEnd isBlank code.blankedChars offset =
      runEnd isBlank code.blankedChars (code.skipBlanks offset) :=
    runEnd_eq_of_forall (le_skipBlanks code offset) fun index hfrom hto =>
      isBlank_blankedChars hordered (blank_or_commented_of_lt_skipBlanks hfrom hto)
  rw [hskipped, runEnd_of_not_class]
  rw [getElem?_blankedChars (not_commented_skipBlanks hordered.inOrder offset)]
  exact not_blank_skipBlanks code offset

theorem skipBlanks_blanked (hordered : code.OrderedComments) (offset : Nat) :
    code.blanked.skipBlanks offset = code.skipBlanks offset := by
  rw [skipBlanks_eq_runEnd hordered, skipBlanks]
  dsimp only
  split
  next comment hfound =>
    rw [commentHolding_blanked] at hfound
    contradiction
  next => rfl

theorem continuesChain_blanked (hordered : code.OrderedComments) (offset : Nat) :
    code.blanked.continuesChain offset = code.continuesChain offset := by
  rw [continuesChain, continuesChain, skipBlanks_blanked hordered]
  exact congrArg (fun c => decide (c = some '.'))
    (getElem?_blankedChars (not_commented_skipBlanks hordered.inOrder offset))

theorem eq_space_of_mem_between_blanked (hordered : code.OrderedComments) {comment : Span}
    (hmem : comment ∈ code.comments) {c : Char} (hc : c ∈ code.blanked.between comment) :
    c = ' ' := by
  obtain ⟨index, hfrom, hto, hget⟩ := mem_between.mp hc
  have hcommented : code.commented index :=
    commented_iff.mpr ⟨comment, hmem, Span.contains_iff.mpr ⟨hfrom, hto⟩⟩
  have hspace := getElem?_blankedChars_of_commented (hordered.lt_size hcommented) hcommented
  exact Option.some.inj (hget.symm.trans hspace)

/-- Blanking leaves a span as it is that no comment meets. -/
theorem between_blanked {span : Span}
    (hcode : ∀ index, span.start ≤ index → index < span.stop → code.commented index = false) :
    code.blanked.between span = code.between span := by
  apply List.ext_getElem?
  intro place
  rw [between_eq_drop, between_eq_drop]
  simp only [List.getElem?_drop, List.getElem?_take, Array.getElem?_toList]
  split
  next hlt => exact getElem?_blankedChars (hcode _ (Nat.le_add_right _ _) hlt)
  next => rfl

end Code

end Caret.Chain
