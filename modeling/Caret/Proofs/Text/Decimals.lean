import Caret.Text.Character

/-! # Printed numbers

A number is printed in ASCII digits, and what is read from them is the number again.
-/

namespace Caret.Text

/-- The digits in which a number is printed. -/
def printed (n : Nat) : List Char :=
  (toString n).toList

theorem printed_eq_toDigits (n : Nat) : printed n = Nat.toDigits 10 n := by
  rw [printed, Nat.toString_eq_repr, Nat.toList_repr]

theorem isDigit_of_mem_printed {n : Nat} {c : Char} (hmem : c ∈ printed n) : c.isDigit := by
  rw [printed_eq_toDigits] at hmem
  exact Nat.isDigit_of_mem_toDigits (by decide) (by decide) hmem

theorem not_mem_printed {c : Char} (hc : c.isDigit = false) (n : Nat) : c ∉ printed n := by
  intro hmem
  rw [isDigit_of_mem_printed hmem] at hc
  contradiction

theorem printed_ne_nil (n : Nat) : printed n ≠ [] := by
  rw [printed_eq_toDigits]
  exact Nat.toDigits_ne_nil

theorem digitsValue_printed (n : Nat) : digitsValue (printed n) = n := by
  rw [printed_eq_toDigits]
  exact Nat.ofDigitChars_toDigits (by decide) (by decide)

theorem printed_inj {m n : Nat} (heq : printed m = printed n) : m = n := by
  rw [← digitsValue_printed m, heq, digitsValue_printed]

/-- A text that does not go on a number in front of it. -/
def EndsNumber (text : List Char) : Prop :=
  ∀ c ∈ text.head?, c.isDigit = false

/-- A printed number can be read off what does not go on it. -/
theorem printed_append_inj {m n : Nat} {rest tail : List Char} (hrest : EndsNumber rest)
    (htail : EndsNumber tail) (heq : printed m ++ rest = printed n ++ tail) :
    m = n ∧ rest = tail := by
  have hdigits : ∀ number after, EndsNumber after →
      (printed number ++ after).takeWhile Char.isDigit = printed number := by
    intro number after hafter
    rw [List.takeWhile_append_of_pos fun c hmem => isDigit_of_mem_printed hmem]
    cases after with
    | nil => simp
    | cons c more => simp [hafter c rfl]
  have hprinted : printed m = printed n := by
    rw [← hdigits m rest hrest, heq, hdigits n tail htail]
  rw [hprinted] at heq
  exact ⟨printed_inj hprinted, List.append_cancel_left heq⟩

/-- A printed number is read as itself if it has 64 bits. -/
theorem decimal?_printed (n : Nat) :
    decimal? (printed n) = if n < UInt64.size then some n else none := by
  have hdigits : (printed n).all Char.isDigit :=
    List.all_eq_true.mpr fun c hmem => isDigit_of_mem_printed hmem
  simp [decimal?, hdigits, digitsValue_printed, printed_ne_nil]

end Caret.Text
