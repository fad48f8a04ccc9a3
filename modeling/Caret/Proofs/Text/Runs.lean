import Caret.Text.Character

/-! # Runs of characters from within

A run ends and starts at the same places wherever inside it the search begins.
-/

namespace Caret.Text

variable {inClass : Char → Bool} {chars : Array Char}

/-- A character of the class is passed over. -/
theorem runEnd_succ {offset : Nat} (hclass : chars[offset]?.any inClass) :
    runEnd inClass chars offset = runEnd inClass chars (offset + 1) := by
  have hlt : offset < chars.size := by
    refine Nat.lt_of_not_le fun hle => ?_
    simp [Array.getElem?_eq_none hle] at hclass
  rw [Array.getElem?_eq_getElem hlt, Option.any_some] at hclass
  rw [runEnd, dif_pos hlt, if_pos hclass]

theorem runEnd_of_not_class {offset : Nat} (hclass : chars[offset]?.any inClass = false) :
    runEnd inClass chars offset = offset := by
  rw [runEnd]
  split
  next hlt =>
    rw [Array.getElem?_eq_getElem hlt, Option.any_some] at hclass
    rw [if_neg (by simp [hclass])]
  next => rfl

/-- The characters between two offsets belong to the class, so that the run goes on at
the second one. -/
theorem runEnd_eq_of_forall {offset last : Nat} (hle : offset ≤ last)
    (hclass : ∀ index, offset ≤ index → index < last → chars[index]?.any inClass) :
    runEnd inClass chars offset = runEnd inClass chars last := by
  induction hle with
  | refl => rfl
  | @step last hle ih =>
      have hbefore := ih fun index hfrom hto => hclass index hfrom (Nat.lt_succ_of_lt hto)
      rw [hbefore, runEnd_succ (hclass last hle (Nat.lt_succ_self last))]

theorem class_of_lt_runEnd {offset index : Nat} (hfrom : offset ≤ index)
    (hto : index < runEnd inClass chars offset) : chars[index]?.any inClass := by
  fun_induction runEnd inClass chars offset with
  | case1 offset hlt hclass ih =>
      rcases Nat.lt_or_eq_of_le hfrom with hless | rfl
      · exact ih hless hto
      · simpa [Array.getElem?_eq_getElem hlt] using hclass
  | case2 offset hlt hclass => omega
  | case3 offset hlt => omega

theorem not_class_runEnd (inClass : Char → Bool) (chars : Array Char) (offset : Nat) :
    chars[runEnd inClass chars offset]?.any inClass = false := by
  fun_induction runEnd inClass chars offset with
  | case1 offset hlt hclass ih => exact ih
  | case2 offset hlt hclass => simpa [Array.getElem?_eq_getElem hlt] using hclass
  | case3 offset hlt => simp [Array.getElem?_eq_none (Nat.le_of_not_lt hlt)]

theorem runEnd_le_size {offset : Nat} (hle : offset ≤ chars.size) :
    runEnd inClass chars offset ≤ chars.size := by
  fun_induction runEnd inClass chars offset with
  | case1 offset hlt hclass ih => exact ih hlt
  | case2 offset hlt hclass => exact hle
  | case3 offset hlt => exact hle

/-- The characters between two offsets belong to the class, so that the run starts where
it does for the first one. -/
theorem runStart_eq_of_forall {first offset : Nat} (hle : first ≤ offset)
    (hclass : ∀ index, first ≤ index → index < offset → chars[index]?.any inClass) :
    runStart inClass chars offset = runStart inClass chars first := by
  induction hle with
  | refl => rfl
  | @step offset hle ih =>
      rw [runStart, if_pos (hclass offset hle (Nat.lt_succ_self offset))]
      exact ih fun index hfrom hto => hclass index hfrom (Nat.lt_succ_of_lt hto)

theorem runStart_le_of_forall {first offset : Nat} (hle : first ≤ offset)
    (hclass : ∀ index, first ≤ index → index < offset → chars[index]?.any inClass) :
    runStart inClass chars offset ≤ first := by
  rw [runStart_eq_of_forall hle hclass]
  exact runStart_le _ _ _

theorem class_of_runStart_le {offset index : Nat} (hfrom : runStart inClass chars offset ≤ index)
    (hto : index < offset) : chars[index]?.any inClass := by
  fun_induction runStart inClass chars offset with
  | case1 => contradiction
  | case2 last hclass ih =>
      rcases Nat.lt_or_eq_of_le (Nat.le_of_lt_succ hto) with hless | rfl
      · exact ih hfrom hless
      · exact hclass
  | case3 last hclass => omega

end Caret.Text
