import Caret.Chain.Code

/-! # The characters of a span -/

namespace Caret.Chain

open Text

namespace Code

/-- The characters of a span. What lies outside the text is left out. -/
def between (code : Code) (span : Span) : List Char :=
  (code.chars.extract span.start span.stop).toList

variable {code : Code}

theorem between_eq_drop (code : Code) (span : Span) :
    code.between span = (code.chars.toList.take span.stop).drop span.start := by
  rw [between, Array.toList_extract, List.extract_eq_take_drop, List.drop_take]

theorem between_zero (code : Code) (stop : Nat) :
    code.between ⟨0, stop⟩ = code.chars.toList.take stop := by
  rw [between_eq_drop, List.drop_zero]

/-- Two spans that meet make up one. -/
theorem between_append (code : Code) {start middle stop : Nat} (hstart : start ≤ middle)
    (hstop : middle ≤ stop) :
    code.between ⟨start, middle⟩ ++ code.between ⟨middle, stop⟩ = code.between ⟨start, stop⟩ := by
  rw [between, between, between, ← Array.toList_append, Array.extract_append_extract,
    Nat.min_eq_left hstart, Nat.max_eq_right hstop]

theorem take_eq_append_between (code : Code) {span : Span} (hle : span.start ≤ span.stop) :
    code.chars.toList.take span.stop =
      code.chars.toList.take span.start ++ code.between span := by
  have hsplit := List.take_append_drop span.start (code.chars.toList.take span.stop)
  rw [List.take_take, Nat.min_eq_left hle, ← between_eq_drop] at hsplit
  exact hsplit.symm

theorem getElem?_of_between_zero {stop index : Nat} {text : List Char}
    (htext : code.between ⟨0, stop⟩ = text) (hlt : index < stop) :
    code.chars[index]? = text[index]? := by
  rw [← htext, between_zero, List.getElem?_take_of_lt hlt, Array.getElem?_toList]

theorem mem_between {span : Span} {c : Char} :
    c ∈ code.between span ↔
      ∃ index, span.start ≤ index ∧ index < span.stop ∧ code.chars[index]? = some c := by
  rw [between_eq_drop, List.mem_iff_getElem?]
  simp only [List.getElem?_drop, List.getElem?_take, Array.getElem?_toList]
  constructor
  · rintro ⟨place, hc⟩
    split at hc
    next hlt => exact ⟨span.start + place, Nat.le_add_right _ _, hlt, hc⟩
    next => contradiction
  · rintro ⟨index, hfrom, hto, hc⟩
    refine ⟨index - span.start, ?_⟩
    rw [Nat.add_sub_cancel' hfrom, if_pos hto, hc]

theorem length_between {start stop : Nat} (hstop : stop ≤ code.chars.size) :
    (code.between ⟨start, stop⟩).length = stop - start := by
  rw [between, Array.length_toList, Array.size_extract, Nat.min_eq_left hstop]

theorem between_singleton {index : Nat} {c : Char} (hc : code.chars[index]? = some c) :
    code.between ⟨index, index + 1⟩ = [c] := by
  rw [between_eq_drop, List.take_add_one, Array.getElem?_toList, hc, Option.toList_some]
  have hlength : (code.chars.toList.take index).length = index := by
    have hlt := (Array.getElem?_eq_some_iff.mp hc).1
    rw [List.length_take, Array.length_toList, Nat.min_eq_left (Nat.le_of_lt hlt)]
  exact List.drop_left' hlength

theorem between_succ {start index : Nat} {c : Char} (hstart : start ≤ index)
    (hc : code.chars[index]? = some c) :
    code.between ⟨start, index + 1⟩ = code.between ⟨start, index⟩ ++ [c] := by
  rw [← between_append code hstart (Nat.le_succ index), between_singleton hc]

theorem between_cons {start stop : Nat} {c : Char} (hlt : start < stop)
    (hc : code.chars[start]? = some c) :
    code.between ⟨start, stop⟩ = c :: code.between ⟨start + 1, stop⟩ := by
  rw [← between_append code (Nat.le_succ start) hlt, between_singleton hc, List.singleton_append]

section Front

variable {place : Nat} (hsize : place ≤ code.chars.size) {front : List Char}
include hsize

theorem getLast?_between_zero :
    (code.between ⟨0, place⟩).getLast? = if place = 0 then none else code.chars[place - 1]? := by
  rw [List.getLast?_eq_getElem?, length_between hsize, Nat.sub_zero]
  split
  next hzero => simp [hzero, between]
  next hpos => exact (getElem?_of_between_zero rfl (Nat.sub_one_lt hpos)).symm

theorem length_eq_of_between_zero (htext : code.between ⟨0, place⟩ = front) :
    place = front.length := by
  rw [← htext, length_between hsize, Nat.sub_zero]

theorem between_zero_eq_left {rest : List Char} (hsplit : code.between ⟨0, place⟩ = front ++ rest) :
    front.length ≤ code.chars.size ∧ code.between ⟨0, front.length⟩ = front := by
  have hle : front.length ≤ place := by
    rw [length_eq_of_between_zero hsize hsplit, List.length_append]
    exact Nat.le_add_right _ _
  have hfront := congrArg (List.take front.length) hsplit
  rw [between_zero, List.take_take, Nat.min_eq_left hle, List.take_left' rfl] at hfront
  exact ⟨Nat.le_trans hle hsize, (between_zero code _).trans hfront⟩

/-- The last character before a place, and what stands before that one. -/
theorem between_zero_eq_concat {c : Char} (htext : code.between ⟨0, place⟩ = front ++ [c]) :
    place = front.length + 1 ∧ code.between ⟨0, front.length⟩ = front ∧
      code.chars[front.length]? = some c := by
  obtain rfl : place = front.length + 1 :=
    (length_eq_of_between_zero hsize htext).trans List.length_append
  have hc := getElem?_of_between_zero htext (Nat.lt_succ_self _)
  rw [List.getElem?_concat_length] at hc
  exact ⟨rfl, (between_zero_eq_left hsize htext).2, hc⟩

end Front

end Code

end Caret.Chain
