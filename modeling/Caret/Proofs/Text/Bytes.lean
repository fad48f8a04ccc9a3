import Caret.Text.Index
import Mathlib.Data.List.Induction

/-! # Offsets and bytes

Each offset of a text lies at one byte, and later offsets lie at later bytes.
Looking up the offset of a byte is adjoint to that, so between the places where
characters begin the two conversions undo each other.
-/

namespace Caret.Text

/-- The length of characters in bytes. -/
def utf8Length : List Char → Nat
  | [] => 0
  | c :: rest => c.utf8Size + utf8Length rest

@[simp]
theorem utf8Length_append (left right : List Char) :
    utf8Length (left ++ right) = utf8Length left + utf8Length right := by
  induction left with
  | nil => simp [utf8Length]
  | cons c rest ih => simp [utf8Length, ih, Nat.add_assoc]

theorem length_le_utf8Length (chars : List Char) : chars.length ≤ utf8Length chars := by
  induction chars with
  | nil => exact Nat.le_refl _
  | cons c rest ih =>
      have hpos := c.utf8Size_pos
      simp only [utf8Length, List.length_cons]
      omega

theorem utf8ByteSize_ofList (chars : List Char) :
    (String.ofList chars).utf8ByteSize = utf8Length chars := by
  induction chars with
  | nil => rfl
  | cons c rest ih =>
      have hcons : String.ofList (c :: rest) = String.singleton c ++ String.ofList rest := by
        rw [← String.toList_inj]
        simp
      rw [hcons, String.utf8ByteSize_append, String.utf8ByteSize_singleton, utf8Length, ih]

/-- A text takes as many bytes as its characters. -/
theorem utf8ByteSize_eq (text : String) : text.utf8ByteSize = utf8Length text.toList := by
  rw [← utf8ByteSize_ofList, String.ofList_toList]

theorem utf8Length_take_lt {chars : List Char} {left right : Nat} (hlt : left < right)
    (hright : right ≤ chars.length) :
    utf8Length (chars.take left) < utf8Length (chars.take right) := by
  have hsplit : chars.take right = chars.take left ++ (chars.drop left).take (right - left) := by
    rw [← List.take_add, Nat.add_sub_cancel' (Nat.le_of_lt hlt)]
  have hlength := length_le_utf8Length ((chars.drop left).take (right - left))
  rw [hsplit, utf8Length_append]
  simp only [List.length_take, List.length_drop] at hlength
  omega

theorem byteStarts_append_singleton (chars : List Char) (c : Char) :
    byteStarts (chars ++ [c]) =
      (byteStarts chars).push ((byteStarts chars).back?.getD 0 + c.utf8Size) := by
  simp [byteStarts]

theorem size_byteStarts (chars : List Char) : (byteStarts chars).size = chars.length + 1 := by
  induction chars using List.reverseRecOn with
  | nil => rfl
  | append_singleton chars c ih => simp [byteStarts_append_singleton, ih]

/-- A character begins where the characters before it end. -/
theorem getElem?_byteStarts {chars : List Char} {offset : Nat} (hoffset : offset ≤ chars.length) :
    (byteStarts chars)[offset]? = some (utf8Length (chars.take offset)) := by
  induction chars using List.reverseRecOn generalizing offset with
  | nil =>
      obtain rfl : offset = 0 := Nat.le_zero.mp hoffset
      rfl
  | append_singleton chars c ih =>
      rw [List.length_append, List.length_singleton] at hoffset
      have hlast : (byteStarts chars).back? = some (utf8Length chars) := by
        rw [Array.back?_eq_getElem?, size_byteStarts, Nat.add_sub_cancel]
        simpa using ih (Nat.le_refl _)
      rw [byteStarts_append_singleton, Array.getElem?_push, size_byteStarts, hlast]
      by_cases heq : offset = chars.length + 1
      · rw [if_pos heq, List.take_of_length_le (by simp [heq]), utf8Length_append]
        simp [utf8Length]
      · rw [if_neg heq, ih (by omega), List.take_append_of_le_length (by omega)]

namespace Index

variable {text : String}

theorem size_ofString (text : String) : (ofString text).size = text.toList.length := rfl

/-- The byte of an offset is the length of the text before it. -/
theorem byteOf_ofString {offset : Nat} (hoffset : offset ≤ (ofString text).size) :
    (ofString text).byteOf offset = some (utf8Length (text.toList.take offset)) :=
  getElem?_byteStarts hoffset

theorem le_size_of_byteOf {offset byte : Nat} (hbyte : (ofString text).byteOf offset = some byte) :
    offset ≤ (ofString text).size := by
  obtain ⟨hlt, -⟩ := Array.getElem?_eq_some_iff.mp hbyte
  have hsize : (ofString text).byteStarts.size = (ofString text).size + 1 :=
    size_byteStarts text.toList
  omega

theorem eq_utf8Length_of_byteOf {offset byte : Nat}
    (hbyte : (ofString text).byteOf offset = some byte) :
    byte = utf8Length (text.toList.take offset) := by
  rw [byteOf_ofString (le_size_of_byteOf hbyte)] at hbyte
  exact (Option.some.inj hbyte).symm

theorem byteOf_lt_iff {left right start stop : Nat}
    (hstart : (ofString text).byteOf left = some start)
    (hstop : (ofString text).byteOf right = some stop) : start < stop ↔ left < right := by
  have hleft := le_size_of_byteOf hstart
  have hright := le_size_of_byteOf hstop
  rw [size_ofString] at hleft hright
  rw [eq_utf8Length_of_byteOf hstart, eq_utf8Length_of_byteOf hstop]
  constructor
  · intro hlt
    by_contra hle
    rcases Nat.lt_or_eq_of_le (Nat.le_of_not_lt hle) with hback | rfl
    · have hother := utf8Length_take_lt hback hleft
      omega
    · exact Nat.lt_irrefl _ hlt
  · exact fun hlt => utf8Length_take_lt hlt hright

theorem byteOf_le_iff {left right start stop : Nat}
    (hstart : (ofString text).byteOf left = some start)
    (hstop : (ofString text).byteOf right = some stop) : start ≤ stop ↔ left ≤ right := by
  rw [← Nat.not_lt, ← Nat.not_lt, byteOf_lt_iff hstop hstart]

/-- A byte is converted to an offset that does not lie past another one exactly
if the byte does not lie past that other's byte. -/
theorem charOf_le_iff {offset start byte : Nat}
    (hstart : (ofString text).byteOf offset = some start) :
    (ofString text).charOf byte ≤ offset ↔ byte ≤ start := by
  have hsize : (ofString text).byteStarts.size = text.toList.length + 1 := size_byteStarts _
  have hoffset := le_size_of_byteOf hstart
  rw [size_ofString] at hoffset
  have hget : ∀ i ≤ text.toList.length,
      (ofString text).byteStarts.getD i 0 = utf8Length (text.toList.take i) := by
    intro i hi
    have hbyte : (ofString text).byteStarts[i]? = _ := getElem?_byteStarts hi
    rw [Array.getD_eq_getD_getElem?, hbyte, Option.getD_some]
  have hmono : ∀ i j, i ≤ j → j < (ofString text).byteStarts.size →
      decide ((ofString text).byteStarts.getD j 0 < byte) →
      decide ((ofString text).byteStarts.getD i 0 < byte) := by
    intro i j hij hj hbelow
    rw [hsize] at hj
    rw [decide_eq_true_iff, hget j (by omega)] at hbelow
    rw [decide_eq_true_iff, hget i (by omega)]
    rcases Nat.lt_or_eq_of_le hij with hlt | rfl
    · exact Nat.lt_trans (utf8Length_take_lt hlt (by omega)) hbelow
    · exact hbelow
  have hside := lt_partitionPoint_iff hmono
    (show offset < (ofString text).byteStarts.size by omega)
  rw [decide_eq_true_iff, hget offset hoffset, ← eq_utf8Length_of_byteOf hstart] at hside
  rw [← Nat.not_lt, ← Nat.not_lt]
  exact not_congr hside

theorem charOf_mono {byte other : Nat} (hle : byte ≤ other) :
    (ofString text).charOf byte ≤ (ofString text).charOf other := by
  by_cases hinside : (ofString text).charOf other ≤ (ofString text).size
  · have hstart := byteOf_ofString hinside
    exact (charOf_le_iff hstart).mpr (Nat.le_trans hle ((charOf_le_iff hstart).mp (Nat.le_refl _)))
  · have hlast : (ofString text).charOf byte ≤ (ofString text).byteStarts.size :=
      partitionPoint_le _ _
    have hsize : (ofString text).byteStarts.size = (ofString text).size + 1 :=
      size_byteStarts text.toList
    omega

theorem charOf_byteOf {offset start : Nat} (hstart : (ofString text).byteOf offset = some start) :
    (ofString text).charOf start = offset := by
  have hle : (ofString text).charOf start ≤ offset := (charOf_le_iff hstart).mpr (Nat.le_refl _)
  have hbefore := byteOf_ofString (Nat.le_trans hle (le_size_of_byteOf hstart))
  refine Nat.le_antisymm hle ?_
  exact (byteOf_le_iff hstart hbefore).mp ((charOf_le_iff hbefore).mp (Nat.le_refl _))

/-- Between the byte of an offset and that of the next one there is no other offset. -/
theorem charOf_of_between {offset start next byte : Nat}
    (hstart : (ofString text).byteOf offset = some start)
    (hnext : (ofString text).byteOf (offset + 1) = some next) (hlt : start < byte)
    (hle : byte ≤ next) : (ofString text).charOf byte = offset + 1 := by
  have hupper := (charOf_le_iff hnext).mpr hle
  have hlower : ¬ (ofString text).charOf byte ≤ offset :=
    mt (charOf_le_iff hstart).mp (Nat.not_le.mpr hlt)
  omega

theorem byteOf_succ {offset start : Nat} {c : Char} (hc : text.toList[offset]? = some c)
    (hstart : (ofString text).byteOf offset = some start) :
    (ofString text).byteOf (offset + 1) = some (start + c.utf8Size) := by
  obtain ⟨hlt, -⟩ := List.getElem?_eq_some_iff.mp hc
  rw [byteOf_ofString hlt, List.take_add_one, hc, utf8Length_append,
    eq_utf8Length_of_byteOf hstart]
  simp [utf8Length]

theorem charOf_of_past {byte : Nat} (hpast : text.utf8ByteSize < byte) :
    (ofString text).charOf byte = text.length + 1 := by
  have hend : (ofString text).byteOf (ofString text).size = some _ :=
    byteOf_ofString (Nat.le_refl _)
  rw [size_ofString, List.take_length, ← utf8ByteSize_eq, String.length_toList] at hend
  have hlower : ¬ (ofString text).charOf byte ≤ text.length :=
    mt (charOf_le_iff hend).mp (Nat.not_le.mpr hpast)
  have hupper : (ofString text).charOf byte ≤ (ofString text).byteStarts.size :=
    partitionPoint_le _ _
  have hsize : (ofString text).byteStarts.size = text.toList.length + 1 := size_byteStarts _
  rw [String.length_toList] at hsize
  omega

/-- A byte at which some offset lies. -/
def IsBoundary (index : Index) (byte : Nat) : Prop :=
  byte ∈ index.byteStarts

instance (index : Index) (byte : Nat) : Decidable (index.IsBoundary byte) :=
  inferInstanceAs (Decidable (byte ∈ index.byteStarts))

theorem IsBoundary.byteOf_charOf {byte : Nat} (hbyte : (ofString text).IsBoundary byte) :
    (ofString text).byteOf ((ofString text).charOf byte) = some byte := by
  obtain ⟨offset, hoffset⟩ := Array.mem_iff_getElem?.mp hbyte
  rw [charOf_byteOf hoffset]
  exact hoffset

theorem IsBoundary.charOf_le_size {byte : Nat} (hbyte : (ofString text).IsBoundary byte) :
    (ofString text).charOf byte ≤ (ofString text).size :=
  le_size_of_byteOf hbyte.byteOf_charOf

/-- Text between two offsets is found again by the bytes of its ends. -/
theorem byteSlice_byteOf {left right start stop : Nat} (hle : left ≤ right)
    (hstart : (ofString text).byteOf left = some start)
    (hstop : (ofString text).byteOf right = some stop) :
    (ofString text).byteSlice ⟨start, stop⟩ = some ((ofString text).slice ⟨left, right⟩) := by
  have hbytes := (byteOf_le_iff hstart hstop).mpr hle
  simp only [byteSlice, charSpan, charOf_byteOf hstart, charOf_byteOf hstop, hstart, hstop, hbytes,
    and_self, if_true]

/-- Bytes and offsets form a Galois connection. The offsets of a text lie at the lengths of
what precedes them, and any byte is taken to the least offset that does not lie before it.
So a byte inside a character belongs to the offset after it, and a byte past the end to the
one after the last. -/
theorem offsets_galois_bytes (text : String) :
    (∀ offset ≤ text.length, ∃ start, (ofString text).byteOf offset = some start ∧
      start = (String.ofList (text.toList.take offset)).utf8ByteSize ∧
      (∀ byte, (ofString text).charOf byte ≤ offset ↔ byte ≤ start) ∧
      (ofString text).charOf start = offset) ∧
    (∀ offset, text.length < offset → (ofString text).byteOf offset = none) ∧
    (∀ byte other, byte ≤ other → (ofString text).charOf byte ≤ (ofString text).charOf other) ∧
    (∀ offset c start byte, text.toList[offset]? = some c →
      (ofString text).byteOf offset = some start → start < byte → byte < start + c.utf8Size →
      (ofString text).charOf byte = offset + 1) ∧
    (∀ byte, text.utf8ByteSize < byte → (ofString text).charOf byte = text.length + 1) := by
  have hsize : (ofString text).size = text.length := String.length_toList
  refine ⟨?_, ?_, fun _ _ => charOf_mono, ?_, fun _ => charOf_of_past⟩
  · intro offset hoffset
    have hstart := byteOf_ofString (hsize.symm ▸ hoffset)
    exact ⟨_, hstart, (utf8ByteSize_ofList _).symm, fun byte => charOf_le_iff hstart,
      charOf_byteOf hstart⟩
  · intro offset hpast
    refine Option.eq_none_iff_forall_ne_some.mpr fun byte hbyte => ?_
    have hle := le_size_of_byteOf hbyte
    omega
  · intro offset c start byte hc hstart hlt hinside
    exact charOf_of_between hstart (byteOf_succ hc hstart) hlt (Nat.le_of_lt hinside)

theorem offsets_galois_bytes_widths :
    (∃ start, (ofString "aßह😀").byteOf 3 = some start ∧
      start = (String.ofList ['a', 'ß', 'ह']).utf8ByteSize ∧
      (∀ byte, (ofString "aßह😀").charOf byte ≤ 3 ↔ byte ≤ start) ∧
      (ofString "aßह😀").charOf start = 3) ∧
    (ofString "aßह😀").byteOf 5 = none ∧
    (ofString "aßह😀").charOf 4 ≤ (ofString "aßह😀").charOf 5 ∧
    (ofString "aßह😀").charOf 8 = 4 ∧ (ofString "aßह😀").charOf 11 = 5 := by
  obtain ⟨hstarts, hoff, hmono, hinside, hpast⟩ := offsets_galois_bytes "aßह😀"
  exact ⟨hstarts 3 (by decide), hoff 5 (by decide), hmono 4 5 (by decide),
    hinside 3 '😀' 6 8 (by decide) (by decide +kernel) (by decide) (by decide),
    hpast 11 (by decide +kernel)⟩

end Index

end Caret.Text
