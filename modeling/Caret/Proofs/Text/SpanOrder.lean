import Caret.Text.Span

/-! # Spans in order

Where spans stand in order and apart, the one that holds an offset is found whenever
there is one.
-/

namespace Caret.Text

/-- Spans in order and apart: none of them ends before it starts, or after the next one
starts. -/
structure InOrder (spans : Array Span) : Prop where
  start_le_stop : ∀ span ∈ spans, span.start ≤ span.stop
  apart : spans.toList.Pairwise (·.stop ≤ ·.start)

instance (spans : Array Span) : Decidable (InOrder spans) :=
  decidable_of_iff ((∀ span ∈ spans, span.start ≤ span.stop) ∧
      spans.toList.Pairwise (·.stop ≤ ·.start))
    ⟨fun h => ⟨h.1, h.2⟩, fun h => ⟨h.1, h.2⟩⟩

namespace InOrder

variable {spans : Array Span}

theorem stop_le_start (hinorder : InOrder spans) {left right : Nat} (hlt : left < right)
    (hright : right < spans.size) : spans[left].stop ≤ spans[right].start :=
  List.pairwise_iff_getElem.mp hinorder.apart left right
    (Nat.lt_trans hlt hright) hright hlt

/-- Looking up a span finds the one that holds the offset. -/
theorem holding_of_contains (hinorder : InOrder spans) {span : Span} (hmem : span ∈ spans)
    {offset : Nat} (hholds : span.contains offset) : holding spans offset = some span := by
  obtain ⟨place, hplace, rfl⟩ := Array.mem_iff_getElem.mp hmem
  obtain ⟨hstart, hstop⟩ := Span.contains_iff.mp hholds
  have hget : ∀ i, (hi : i < spans.size) → spans.getD i ⟨0, 0⟩ = spans[i] := by
    intro i hi
    rw [Array.getD_eq_getD_getElem?, Array.getElem?_eq_getElem hi, Option.getD_some]
  have hafter : partitionPoint (fun i => decide ((spans.getD i ⟨0, 0⟩).stop ≤ offset))
      spans.size = place := by
    refine partitionPoint_eq (Nat.le_of_lt hplace) ?_ ?_
    · intro i hi
      have hbefore := hinorder.stop_le_start hi hplace
      rw [decide_eq_true_iff, hget i (Nat.lt_trans hi hplace)]
      omega
    · intro i hge hi
      rw [decide_eq_true_iff, hget i hi]
      rcases Nat.lt_or_eq_of_le hge with hlt | rfl
      · have hbefore := hinorder.stop_le_start hlt hi
        have hinside := hinorder.start_le_stop _ (Array.getElem_mem hi)
        omega
      · omega
  simp only [holding]
  rw [hafter, Array.getElem?_eq_getElem hplace]
  exact Option.filter_eq_some_iff.mpr ⟨rfl, hholds⟩

/-- A span that holds an offset is the only one that does. -/
theorem filter_contains (hinorder : InOrder spans) {span : Span} (hmem : span ∈ spans)
    {offset : Nat} (hholds : span.contains offset) :
    spans.filter (·.contains offset) = #[span] := by
  have hfound : span ∈ spans.toList.filter (·.contains offset) :=
    List.mem_filter.mpr ⟨Array.mem_toList_iff.mpr hmem, hholds⟩
  have hall : ∀ other ∈ spans.toList.filter (·.contains offset), other.contains offset :=
    fun other hother => (List.mem_filter.mp hother).2
  have hapart := hinorder.apart.filter (·.contains offset)
  apply Array.toList_inj.mp
  rw [Array.toList_filter]
  generalize spans.toList.filter (·.contains offset) = found at *
  match found with
  | [] => contradiction
  | [first] => rw [List.mem_singleton.mp hfound]
  | first :: second :: rest =>
      have hbetween := (List.pairwise_cons.mp hapart).1 second (by simp)
      have hfirst := Span.contains_iff.mp (hall first (by simp))
      have hsecond := Span.contains_iff.mp (hall second (by simp))
      omega

end InOrder

end Caret.Text
