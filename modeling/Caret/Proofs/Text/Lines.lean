import Caret.Text.Index

/-! # Lines and the order of positions

Lines begin at increasing offsets, so the line of an offset is the last one that
begins no later. Positions are therefore ordered as their offsets are.
-/

namespace Caret.Text

theorem pairwise_lineStarts (chars : List Char) : (lineStarts chars).Pairwise (· < ·) := by
  refine List.pairwise_cons.mpr ⟨?_, ?_⟩
  · intro start hstart
    obtain ⟨⟨c, offset⟩, -, hsome⟩ := List.mem_filterMap.mp hstart
    simp only [Option.ite_none_right_eq_some, Option.some.injEq] at hsome
    omega
  · have hordered : chars.zipIdx.Pairwise (fun first second => first.2 < second.2) := by
      apply List.pairwise_map.mp
      rw [List.zipIdx_map_snd]
      exact List.pairwise_lt_range'
    refine hordered.filterMap _ ?_
    rintro ⟨c, offset⟩ ⟨d, later⟩ hlt start hstart next hnext
    simp only [Option.ite_none_right_eq_some, Option.some.injEq] at hstart hnext
    omega

theorem Position.not_lt_self (position : Position) : ¬ position < position := by
  rw [Position.lt_def]
  omega

theorem Position.not_lt_of_lt {left right : Position} (hlt : left < right) : ¬ right < left := by
  rw [Position.lt_def] at hlt ⊢
  omega

theorem Position.not_le_iff {left right : Position} : ¬ left ≤ right ↔ right < left := by
  rw [Position.lt_def, Position.le_def]
  omega

theorem Position.le_iff_lt_or_eq {left right : Position} :
    left ≤ right ↔ left < right ∨ left = right := by
  rw [Position.lt_def, Position.le_def, Position.mk.injEq]
  omega

instance : Std.IsLinearPreorder Position where
  le_refl position := by
    rw [Position.le_def]
    omega
  le_trans first second third := by
    simp only [Position.le_def]
    omega
  le_total left right := by
    simp only [Position.le_def]
    omega

/-- Whether a region reaches over another one. -/
def Region.Covers (region other : Region) : Prop :=
  region.start ≤ other.start ∧ other.stop ≤ region.stop

namespace Index

variable {text : String}

/-- The offset at which a line begins. -/
def lineStart (index : Index) (line : Nat) : Nat :=
  index.lineStarts.getD line 0

theorem lineStart_zero (text : String) : (ofString text).lineStart 0 = 0 := rfl

theorem lineCount_pos (text : String) : 0 < (ofString text).lineCount := Nat.succ_pos _

theorem lineStart_lt {line later : Nat} (hlt : line < later)
    (hlater : later < (ofString text).lineCount) :
    (ofString text).lineStart line < (ofString text).lineStart later := by
  have hordered := List.pairwise_iff_getElem.mp (pairwise_lineStarts text.toList)
  have hlength : later < (Text.lineStarts text.toList).length := hlater
  have hstarts := hordered line later (by omega) hlength hlt
  simpa [lineStart, ofString, Array.getD_eq_getD_getElem?, hlength,
    Nat.lt_trans hlt hlength] using hstarts

/-- A line lies at or before that of an offset if it begins at or before the
offset. -/
theorem le_lineAt_iff {line offset : Nat} (hline : line < (ofString text).lineCount) :
    line ≤ (ofString text).lineAt offset ↔ (ofString text).lineStart line ≤ offset := by
  have hmono : ∀ i j, i ≤ j → j < (ofString text).lineCount →
      decide ((ofString text).lineStart j ≤ offset) →
      decide ((ofString text).lineStart i ≤ offset) := by
    intro i j hij hj hbegun
    rw [decide_eq_true_iff] at hbegun ⊢
    rcases Nat.lt_or_eq_of_le hij with hlt | rfl
    · exact Nat.le_of_lt (Nat.lt_of_lt_of_le (lineStart_lt hlt hj) hbegun)
    · exact hbegun
  have hside := lt_partitionPoint_iff hmono hline
  have hfirst := lt_partitionPoint_iff hmono (lineCount_pos text)
  rw [decide_eq_true_iff] at hside hfirst
  rw [lineStart_zero] at hfirst
  rw [← hside]
  change line ≤ partitionPoint (fun i => decide ((ofString text).lineStart i ≤ offset)) _ - 1 ↔ _
  omega

theorem lineAt_lt_lineCount (text : String) (offset : Nat) :
    (ofString text).lineAt offset < (ofString text).lineCount := by
  have hle := partitionPoint_le
    (fun line => (ofString text).lineStarts.getD line 0 ≤ offset) (ofString text).lineCount
  have hpos := lineCount_pos text
  unfold lineAt
  omega

theorem lineStart_lineAt_le (text : String) (offset : Nat) :
    (ofString text).lineStart ((ofString text).lineAt offset) ≤ offset :=
  (le_lineAt_iff (lineAt_lt_lineCount text offset)).mp (Nat.le_refl _)

theorem lineColumn_lt {left right : Nat} (hlt : left < right) :
    (ofString text).lineColumn left < (ofString text).lineColumn right := by
  have hbegins := lineStart_lineAt_le text left
  have hline : (ofString text).lineAt left ≤ (ofString text).lineAt right :=
    (le_lineAt_iff (lineAt_lt_lineCount text left)).mpr (by omega)
  rcases Nat.lt_or_eq_of_le hline with hearlier | hsame
  · exact Or.inl hearlier
  · refine Or.inr ⟨hsame, ?_⟩
    change left - (ofString text).lineStart _ < right - (ofString text).lineStart _
    rw [← hsame]
    omega

/-- Offsets and their positions are ordered alike. -/
theorem lineColumn_lt_iff {left right : Nat} :
    (ofString text).lineColumn left < (ofString text).lineColumn right ↔ left < right := by
  refine ⟨fun hlt => ?_, lineColumn_lt⟩
  rcases Nat.lt_trichotomy left right with hless | rfl | hback
  · exact hless
  · exact absurd hlt (Position.not_lt_self _)
  · exact absurd (lineColumn_lt hback) (Position.not_lt_of_lt hlt)

theorem lineColumn_mono {left right : Nat} (hle : left ≤ right) :
    (ofString text).lineColumn left ≤ (ofString text).lineColumn right := by
  rcases Nat.lt_or_eq_of_le hle with hlt | rfl
  · exact Position.le_iff_lt_or_eq.mpr (.inl (lineColumn_lt hlt))
  · exact Std.le_refl _

theorem positionOf_eq_some {index : Index} {offset : Nat} {position : Position}
    (hposition : (index.positionOf offset).toOption = some position) :
    offset ≤ index.size ∧ position = index.lineColumn offset := by
  unfold positionOf at hposition
  split at hposition
  next hle => exact ⟨hle, (Option.some.inj hposition).symm⟩
  next => contradiction

theorem positionOf_of_le {index : Index} {offset : Nat} (hoffset : offset ≤ index.size) :
    index.positionOf offset = .ok (index.lineColumn offset) :=
  if_pos hoffset

end Index

end Caret.Text
