import Caret.Proofs.Text.Bytes
import Caret.Proofs.Text.Lines

/-! # The positions of a text

A text is cut into lines at its line feeds. Its positions are the places before, between
and after the characters of each line. They follow each other exactly as the offsets do, so
that each offset has one position and each position one offset, and everything else is
refused.
-/

namespace Caret.Text

/-- The lines of a text without their line feeds. -/
def lines (chars : List Char) : List (List Char) :=
  chars.splitOn '\n'

/-- Whether a text has a position: there is such a line, and the column lies in it or at
its end. -/
structure HasPosition (text : String) (position : Position) : Prop where
  line_le : position.line ≤ text.toList.count '\n'
  column_le : position.column ≤ ((lines text.toList).getD position.line []).length

instance (text : String) (position : Position) : Decidable (HasPosition text position) :=
  decidable_of_iff (position.line ≤ text.toList.count '\n' ∧
      position.column ≤ ((lines text.toList).getD position.line []).length)
    ⟨fun h => ⟨h.1, h.2⟩, fun h => ⟨h.1, h.2⟩⟩

theorem lines_cons (c : Char) (rest : List Char) :
    lines (c :: rest) =
      if c = '\n' then [] :: lines rest else (lines rest).modifyHead (c :: ·) := by
  simp [lines, List.splitOn_cons_eq_if_modifyHead]

theorem exists_lines_eq_cons (chars : List Char) : ∃ first rest, lines chars = first :: rest :=
  List.exists_cons_of_ne_nil (List.splitOnP_ne_nil _ chars)

/-- There is one line more than there are line feeds. -/
theorem length_lines (chars : List Char) : (lines chars).length = chars.count '\n' + 1 := by
  induction chars with
  | nil => rfl
  | cons c rest ih =>
      rw [lines_cons]
      split
      next hfeed => simp [hfeed, ih]
      next hfeed => simp [hfeed, ih]

/-- Where lines begin that follow each other from an offset on, with a line feed between
two of them. -/
def beginnings (offset : Nat) : List (List Char) → List Nat
  | [] => []
  | line :: rest => offset :: beginnings (offset + line.length + 1) rest

/-- The length of lines, each with a line feed. -/
def totalLength : List (List Char) → Nat
  | [] => 0
  | line :: rest => line.length + 1 + totalLength rest

@[simp]
theorem length_beginnings (offset : Nat) (lines : List (List Char)) :
    (beginnings offset lines).length = lines.length := by
  induction lines generalizing offset with
  | nil => rfl
  | cons line rest ih => simp [beginnings, ih]

/-- A line is followed by the next one after its line feed, and the last one by nothing. -/
theorem beginnings_next {lines : List (List Char)} {number : Nat} {line : List Char}
    (hline : lines[number]? = some line) (offset : Nat) :
    ∃ start, (beginnings offset lines)[number]? = some start ∧
      (beginnings offset lines)[number + 1]?.getD (offset + totalLength lines) =
        start + line.length + 1 ∧
      start + line.length + 1 ≤ offset + totalLength lines := by
  induction lines generalizing offset number with
  | nil => contradiction
  | cons first rest ih =>
      have htotal : offset + totalLength (first :: rest) =
          offset + first.length + 1 + totalLength rest := by
        rw [totalLength]
        omega
      rw [beginnings, htotal]
      cases number with
      | zero =>
          obtain rfl := Option.some.inj hline
          refine ⟨offset, rfl, ?_, Nat.le_add_right _ _⟩
          cases rest with
          | nil => rfl
          | cons second rest => rfl
      | succ number => exact ih hline _

theorem totalLength_lines (chars : List Char) : totalLength (lines chars) = chars.length + 1 := by
  induction chars with
  | nil => rfl
  | cons c rest ih =>
      obtain ⟨first, others, hlines⟩ := exists_lines_eq_cons rest
      rw [lines_cons]
      rw [hlines] at ih ⊢
      rw [totalLength] at ih
      split <;> simp only [totalLength, List.modifyHead_cons, List.length_cons,
        List.length_nil] <;> omega

/-- The table of line starts lists where the lines begin. -/
theorem beginnings_lines (offset : Nat) (chars : List Char) :
    beginnings offset (lines chars) =
      offset :: (chars.zipIdx offset).filterMap fun (c, index) =>
        if c = '\n' then some (index + 1) else none := by
  induction chars generalizing offset with
  | nil => rfl
  | cons c rest ih =>
      have hrest := ih (offset + 1)
      rw [lines_cons, List.zipIdx_cons]
      split
      next hfeed =>
        simp only [List.filterMap_cons, if_pos hfeed, ← hrest]
        rfl
      next hfeed =>
        obtain ⟨first, others, hlines⟩ := exists_lines_eq_cons rest
        rw [hlines, beginnings] at hrest
        simp only [List.filterMap_cons, if_neg hfeed, ← (List.cons.inj hrest).2]
        rw [hlines, List.modifyHead_cons, beginnings, List.length_cons, Nat.add_assoc offset 1,
          Nat.add_comm 1]

namespace Index

variable {text : String}

theorem getElem?_lineStarts (number : Nat) :
    (ofString text).lineStarts[number]? = (beginnings 0 (lines text.toList))[number]? := by
  rw [beginnings_lines]
  exact List.getElem?_toArray

theorem lineCount_eq (text : String) :
    (ofString text).lineCount = (lines text.toList).length := by
  rw [← length_beginnings 0, beginnings_lines]
  rfl

/-- A line reaches from its start over its characters to its end. -/
theorem lineEnd_eq {number : Nat} {line : List Char}
    (hline : (lines text.toList)[number]? = some line) :
    (ofString text).lineStarts[number]? = some ((ofString text).lineStart number) ∧
      (ofString text).lineEnd number = (ofString text).lineStart number + line.length ∧
      (ofString text).lineEnd number ≤ (ofString text).size := by
  obtain ⟨start, hstart, hnext, hle⟩ := beginnings_next hline 0
  rw [← getElem?_lineStarts] at hstart hnext
  have hlineStart : (ofString text).lineStart number = start := by
    rw [lineStart, Array.getD_eq_getD_getElem?, hstart, Option.getD_some]
  rw [hlineStart]
  refine ⟨hstart, ?_⟩
  rw [totalLength_lines] at hnext hle
  rw [lineEnd, size_ofString]
  cases hlater : (ofString text).lineStarts[number + 1]? with
  | none =>
      rw [hlater, Option.getD_none] at hnext
      simp only
      omega
  | some next =>
      rw [hlater, Option.getD_some] at hnext
      simp only
      omega

end Index

theorem hasPosition_iff {text : String} {position : Position} :
    HasPosition text position ↔
      ∃ line, (lines text.toList)[position.line]? = some line ∧ position.column ≤ line.length := by
  have hlength := length_lines text.toList
  constructor
  · intro hposition
    have hlt : position.line < (lines text.toList).length := by
      rw [hlength]
      exact Nat.lt_succ_of_le hposition.line_le
    refine ⟨_, List.getElem?_eq_getElem hlt, ?_⟩
    simpa [List.getD_eq_getElem?_getD, hlt] using hposition.column_le
  · rintro ⟨line, hline, hcolumn⟩
    obtain ⟨hlt, -⟩ := List.getElem?_eq_some_iff.mp hline
    rw [hlength] at hlt
    refine ⟨Nat.le_of_lt_succ hlt, ?_⟩
    rwa [List.getD_eq_getElem?_getD, hline, Option.getD_some]

namespace Index

variable {text : String}

/-- A position of the text has an offset, the column past the start of its line. -/
theorem offsetOf_of_hasPosition {position : Position} (hposition : HasPosition text position) :
    (ofString text).offsetOf position =
        .ok ((ofString text).lineStart position.line + position.column) ∧
      (ofString text).lineStart position.line + position.column ≤ (ofString text).size := by
  obtain ⟨line, hline, hcolumn⟩ := hasPosition_iff.mp hposition
  obtain ⟨hstart, hend, hsize⟩ := lineEnd_eq hline
  have hinside : (ofString text).lineStart position.line + position.column ≤
      (ofString text).lineEnd position.line := by omega
  rw [offsetOf, hstart]
  exact ⟨if_pos hinside, Nat.le_trans hinside hsize⟩

/-- No other position has an offset. -/
theorem offsetOf_of_not_hasPosition {position : Position}
    (hposition : ¬ HasPosition text position) :
    (ofString text).offsetOf position = .error (.positionOutOfBounds position) := by
  rw [hasPosition_iff] at hposition
  rw [offsetOf]
  cases hline : (lines text.toList)[position.line]? with
  | none =>
      have hnone : (ofString text).lineStarts[position.line]? = none := by
        rw [getElem?_lineStarts, List.getElem?_eq_none_iff, length_beginnings]
        exact List.getElem?_eq_none_iff.mp hline
      rw [hnone]
  | some line =>
      obtain ⟨hstart, hend, -⟩ := lineEnd_eq hline
      have hpast : ¬ position.column ≤ line.length := fun hcolumn =>
        hposition ⟨line, hline, hcolumn⟩
      rw [hstart, hend]
      exact if_neg (by omega)

/-- Only offsets of the text are found. -/
theorem le_size_of_offsetOf {position : Position} {offset : Nat}
    (hoffset : (ofString text).offsetOf position = .ok offset) :
    offset ≤ (ofString text).size := by
  by_cases hposition : HasPosition text position
  · obtain ⟨hfound, hle⟩ := offsetOf_of_hasPosition hposition
    obtain rfl := Except.ok.inj (hfound.symm.trans hoffset)
    exact hle
  · rw [offsetOf_of_not_hasPosition hposition] at hoffset
    contradiction

/-- The line of an offset that is counted from the start of a line on is that line, unless
the next line has begun. -/
theorem lineAt_eq {number offset : Nat} (hline : number < (ofString text).lineCount)
    (hstart : (ofString text).lineStart number ≤ offset)
    (hnext : number + 1 < (ofString text).lineCount →
      offset < (ofString text).lineStart (number + 1)) :
    (ofString text).lineAt offset = number := by
  refine Nat.le_antisymm (Nat.le_of_not_lt fun hlater => ?_) ((le_lineAt_iff hline).mpr hstart)
  have hcount : number + 1 < (ofString text).lineCount :=
    Nat.lt_of_le_of_lt hlater (lineAt_lt_lineCount text offset)
  have hbegun := (le_lineAt_iff hcount).mp hlater
  exact absurd (hnext hcount) (Nat.not_lt.mpr hbegun)

/-- An offset of the text lies no further than the end of a line if the next line has not
begun there. -/
theorem le_lineEnd_iff {number offset : Nat} (hoffset : offset ≤ (ofString text).size) :
    offset ≤ (ofString text).lineEnd number ↔
      (number + 1 < (ofString text).lineCount →
        offset < (ofString text).lineStart (number + 1)) := by
  by_cases hnext : number + 1 < (ofString text).lineCount
  · have hget : (ofString text).lineStarts[number + 1]? = some _ := Array.getElem?_eq_getElem hnext
    have hlater := lineStart_lt (Nat.zero_lt_succ number) hnext
    simp only [lineEnd, lineStart, Array.getD_eq_getD_getElem?, hget, Option.getD_some,
      forall_prop_of_true hnext] at hlater ⊢
    omega
  · have hget : (ofString text).lineStarts[number + 1]? = none :=
      Array.getElem?_eq_none (Nat.le_of_not_lt hnext)
    simp only [lineEnd, hget, hoffset, forall_prop_of_false hnext]

/-- The offset of a position of the text leads back to the position. -/
theorem lineColumn_of_hasPosition {position : Position} (hposition : HasPosition text position) :
    (ofString text).lineColumn ((ofString text).lineStart position.line + position.column) =
      position := by
  obtain ⟨line, hline, hcolumn⟩ := hasPosition_iff.mp hposition
  obtain ⟨-, hend, -⟩ := lineEnd_eq hline
  have hcount : position.line < (ofString text).lineCount := by
    rw [lineCount_eq]
    exact (List.getElem?_eq_some_iff.mp hline).1
  have hinside : (ofString text).lineStart position.line + position.column ≤
      (ofString text).lineEnd position.line := by omega
  rw [le_lineEnd_iff (offsetOf_of_hasPosition hposition).2] at hinside
  rw [lineColumn, lineAt_eq hcount (Nat.le_add_right _ _) hinside]
  exact congrArg (Position.mk position.line) (Nat.add_sub_cancel_left _ _)

/-- The line and the column of an offset are a position of the text. -/
theorem hasPosition_lineColumn {offset : Nat} (hoffset : offset ≤ (ofString text).size) :
    HasPosition text ((ofString text).lineColumn offset) := by
  have hcount := lineAt_lt_lineCount text offset
  have hlines := hcount
  rw [lineCount_eq] at hlines
  have hline := List.getElem?_eq_getElem hlines
  refine hasPosition_iff.mpr ⟨_, hline, ?_⟩
  have hstart := lineStart_lineAt_le text offset
  obtain ⟨-, hend, -⟩ := lineEnd_eq hline
  have hinside : offset ≤ (ofString text).lineEnd ((ofString text).lineAt offset) := by
    rw [le_lineEnd_iff hoffset]
    intro hnext
    rw [← Nat.not_le, ← le_lineAt_iff hnext]
    exact Nat.not_succ_le_self _
  change offset - (ofString text).lineStart ((ofString text).lineAt offset) ≤ _
  omega

/-- Neither the line nor the column of an offset is larger than the text. -/
theorem lineColumn_le_size {offset : Nat} (hoffset : offset ≤ (ofString text).size) :
    ((ofString text).lineColumn offset).line ≤ (ofString text).size ∧
      ((ofString text).lineColumn offset).column ≤ (ofString text).size :=
  ⟨Nat.le_trans (hasPosition_lineColumn hoffset).line_le List.count_le_length,
    Nat.le_trans (Nat.sub_le _ _) hoffset⟩

/-- The position of an offset leads back to the offset. -/
theorem offsetOf_lineColumn {offset : Nat} (hoffset : offset ≤ (ofString text).size) :
    (ofString text).offsetOf ((ofString text).lineColumn offset) = .ok offset := by
  have hstart := lineStart_lineAt_le text offset
  rw [(offsetOf_of_hasPosition (hasPosition_lineColumn hoffset)).1]
  change Except.ok ((ofString text).lineStart ((ofString text).lineAt offset) +
    (offset - (ofString text).lineStart ((ofString text).lineAt offset))) = _
  rw [Nat.add_sub_cancel' hstart]

theorem positionOf_eq_ok_iff {offset : Nat} {position : Position} :
    (ofString text).positionOf offset = .ok position ↔
      offset ≤ (ofString text).size ∧ (ofString text).lineColumn offset = position := by
  unfold positionOf
  split
  next hle => simp [hle]
  next hle => simp [hle]

/-- Offsets and positions are order isomorphic. The offsets up to the end of a text and its
positions lead to each other and back, in the same order. Whatever else is asked for is
refused, also where the sum of a line's start and a column does not fit into a word. -/
theorem offsets_orderIso_positions (text : String) :
    (∀ offset ≤ text.length, ∃ position, (ofString text).positionOf offset = .ok position ∧
      HasPosition text position ∧ (ofString text).offsetOf position = .ok offset) ∧
    (∀ position, HasPosition text position → ∃ offset ≤ text.length,
      (ofString text).offsetOf position = .ok offset ∧
        (ofString text).positionOf offset = .ok position) ∧
    (∀ left right first second, (ofString text).positionOf left = .ok first →
      (ofString text).positionOf right = .ok second → (first < second ↔ left < right)) ∧
    (∀ offset, text.length < offset →
      (ofString text).positionOf offset = .error (.offsetOutOfBounds text.length offset)) ∧
    (∀ position, ¬ HasPosition text position →
      (ofString text).offsetOf position = .error (.positionOutOfBounds position)) ∧
    (text.length < UInt64.size → ∀ position start,
      (ofString text).lineStarts[position.line]? = some start →
      UInt64.size ≤ start + position.column →
      (ofString text).offsetOf position = .error (.positionOutOfBounds position)) := by
  have hsize : (ofString text).size = text.length := String.length_toList
  rw [← hsize]
  refine ⟨?_, ?_, ?_, ?_, fun _ => offsetOf_of_not_hasPosition, ?_⟩
  · intro offset hoffset
    exact ⟨_, positionOf_of_le hoffset, hasPosition_lineColumn hoffset,
      offsetOf_lineColumn hoffset⟩
  · intro position hposition
    obtain ⟨hoffset, hle⟩ := offsetOf_of_hasPosition hposition
    refine ⟨_, hle, hoffset, ?_⟩
    rw [positionOf_of_le hle, lineColumn_of_hasPosition hposition]
  · intro left right first second hleft hright
    obtain ⟨-, rfl⟩ := positionOf_eq_ok_iff.mp hleft
    obtain ⟨-, rfl⟩ := positionOf_eq_ok_iff.mp hright
    exact lineColumn_lt_iff
  · intro offset hoffset
    exact if_neg (Nat.not_le.mpr hoffset)
  · intro hfits position start hstart hoverflow
    refine offsetOf_of_not_hasPosition fun hposition => ?_
    -- A position of the text has an offset in it, and all of these fit into a word.
    obtain ⟨-, hle⟩ := offsetOf_of_hasPosition hposition
    rw [lineStart, Array.getD_eq_getD_getElem?, hstart, Option.getD_some] at hle
    omega

theorem offsets_orderIso_positions_lines :
    (∃ position, (ofString "a\r\n\nß").positionOf 4 = .ok position ∧
      HasPosition "a\r\n\nß" position ∧ (ofString "a\r\n\nß").offsetOf position = .ok 4) ∧
    (∃ offset ≤ 5, (ofString "a\r\n\nß").offsetOf ⟨2, 1⟩ = .ok offset ∧
      (ofString "a\r\n\nß").positionOf offset = .ok ⟨2, 1⟩) ∧
    ((⟨0, 2⟩ : Position) < ⟨1, 0⟩ ↔ 2 < 3) ∧
    (ofString "a\r\n\nß").positionOf 6 = .error (.offsetOutOfBounds 5 6) ∧
    (ofString "a\r\n\nß").offsetOf ⟨0, 3⟩ = .error (.positionOutOfBounds ⟨0, 3⟩) ∧
    (ofString "a\r\n\nß").offsetOf ⟨2, 18446744073709551615⟩ =
      .error (.positionOutOfBounds ⟨2, 18446744073709551615⟩) := by
  obtain ⟨hpositions, hoffsets, horder, hpast, hoff, hoverflow⟩ :=
    offsets_orderIso_positions "a\r\n\nß"
  exact ⟨hpositions 4 (by decide), hoffsets ⟨2, 1⟩ (by decide),
    horder 2 3 _ _ (by decide +kernel) (by decide +kernel), hpast 6 (by decide),
    hoff ⟨0, 3⟩ (by decide),
    hoverflow (by decide) ⟨2, 18446744073709551615⟩ 4 (by decide) (by decide)⟩

end Index

end Caret.Text
