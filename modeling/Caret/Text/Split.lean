/-! # Splitting at the last occurrence of a character -/

namespace Caret.Text

/-- The text before and the text after the last occurrence of a character. -/
def splitLast (c : Char) : List Char → Option (List Char × List Char)
  | [] => none
  | first :: rest =>
      match splitLast c rest with
      | some (before, after) => some (first :: before, after)
      | none => if first = c then some ([], rest) else none

theorem splitLast_eq_none_iff {c : Char} {text : List Char} :
    splitLast c text = none ↔ c ∉ text := by
  induction text with
  | nil => simp [splitLast]
  | cons first rest ih =>
      cases hrest : splitLast c rest with
      | some pieces =>
          have hmem : c ∈ rest := by simpa [hrest] using ih
          simp [splitLast, hrest, hmem]
      | none =>
          have hmem : c ∉ rest := ih.mp hrest
          simp [splitLast, hrest, hmem, eq_comm]

theorem splitLast_append {c : Char} (before : List Char) {after : List Char} (hafter : c ∉ after) :
    splitLast c (before ++ c :: after) = some (before, after) := by
  induction before with
  | nil => simp [splitLast, splitLast_eq_none_iff.mpr hafter]
  | cons first rest ih => simp [splitLast, ih]

theorem splitLast_eq_some_iff {c : Char} {text before after : List Char} :
    splitLast c text = some (before, after) ↔ text = before ++ c :: after ∧ c ∉ after := by
  constructor
  · intro hsplit
    induction text generalizing before with
    | nil => simp [splitLast] at hsplit
    | cons first rest ih =>
        cases hrest : splitLast c rest with
        | some pieces =>
            simp only [splitLast, hrest, Option.some.injEq, Prod.mk.injEq] at hsplit
            obtain ⟨rfl, rfl⟩ := hsplit
            obtain ⟨htext, hafter⟩ := ih hrest
            exact ⟨by rw [htext, List.cons_append], hafter⟩
        | none =>
            simp only [splitLast, hrest] at hsplit
            split at hsplit
            · simp only [Option.some.injEq, Prod.mk.injEq] at hsplit
              obtain ⟨rfl, rfl⟩ := hsplit
              subst c
              exact ⟨rfl, splitLast_eq_none_iff.mp hrest⟩
            · simp at hsplit
  · rintro ⟨rfl, hafter⟩
    exact splitLast_append before hafter

end Caret.Text
