import Caret.Chain.Segments
import Mathlib.Data.List.DropRight

/-! # Signatures put together from their parts

A signature without the dots at its end is its root, a dot and its chain. With its dots it
is its base, a dot and the segment after the last dot. Root and base chain make up the base,
provided that the signature does not end in a dot. Root, chain and base chain can also be
read off the segments between the dots.
-/

namespace Caret.Chain

/-- What is left of a signature without the dots at its end. -/
structure Trims (signature trimmed : List Char) : Prop where
  dots : ∃ count, signature = trimmed ++ List.replicate count '.'
  last_ne : trimmed.getLast? ≠ some '.'

section Trim

variable {signature : List Char}

theorem withoutTrailingDots_eq_rdropWhile (signature : List Char) :
    withoutTrailingDots signature = signature.rdropWhile (· = '.') := rfl

theorem trims_withoutTrailingDots (signature : List Char) :
    Trims signature (withoutTrailingDots signature) where
  dots := by
    have hdots : ∀ c ∈ signature.rtakeWhile (· = '.'), c = '.' := by
      intro c hmem
      simpa using List.mem_rtakeWhile_imp hmem
    refine ⟨(signature.rtakeWhile (· = '.')).length, ?_⟩
    rw [← List.eq_replicate_of_mem hdots, withoutTrailingDots_eq_rdropWhile,
      List.rdropWhile_append_rtakeWhile]
  last_ne := by
    rw [withoutTrailingDots_eq_rdropWhile]
    intro hlast
    obtain ⟨hne, hget⟩ := List.mem_getLast?_eq_getLast hlast
    exact List.rdropWhile_last_not _ _ hne (decide_eq_true hget.symm)

theorem withoutTrailingDots_of_getLast? (hlast : signature.getLast? ≠ some '.') :
    withoutTrailingDots signature = signature := by
  rw [withoutTrailingDots_eq_rdropWhile, List.rdropWhile_eq_self_iff]
  intro hne hget
  exact hlast (by rw [List.getLast?_eq_some_getLast hne, of_decide_eq_true hget])

end Trim

section Parts

variable {signature first rest last : List Char}

theorem ne_dot_of_not_mem (hfirst : '.' ∉ first) : ∀ c ∈ first, decide (c ≠ '.') := by
  intro c hmem
  refine decide_eq_true ?_
  rintro rfl
  exact hfirst hmem

/-- The root is what stands before the first dot, and the chain what stands after it, once the
dots at the end are gone. -/
theorem root_and_chain (hfirst : '.' ∉ first)
    (htrimmed : withoutTrailingDots signature = first ++ '.' :: rest) :
    root signature = first ∧ chain signature = rest := by
  have hpass := ne_dot_of_not_mem hfirst
  rw [root, chain, htrimmed, List.takeWhile_append_of_pos hpass,
    List.dropWhile_append_of_pos hpass]
  simp

theorem root_and_chain_of_not_mem (hmem : '.' ∉ withoutTrailingDots signature) :
    root signature = withoutTrailingDots signature ∧ chain signature = [] := by
  have hpass := ne_dot_of_not_mem hmem
  rw [root, chain, List.takeWhile_eq_self_iff.mpr hpass, List.dropWhile_eq_nil_iff.mpr hpass]
  exact ⟨rfl, rfl⟩

theorem chain_of_not_mem (hmem : '.' ∉ signature) : chain signature = [] := by
  have htrimmed : withoutTrailingDots signature = signature :=
    withoutTrailingDots_of_getLast? fun hlast => hmem (List.mem_of_getLast? hlast)
  exact (root_and_chain_of_not_mem (htrimmed.symm ▸ hmem)).2

theorem beforeLastDot_append_cons (before : List Char) (hlast : '.' ∉ last) :
    beforeLastDot (before ++ '.' :: last) = some before := by
  rw [beforeLastDot, Text.splitLast_append before hlast, Option.map_some]

theorem beforeLastDot_eq_none (hmem : '.' ∉ signature) : beforeLastDot signature = none := by
  rw [beforeLastDot, Text.splitLast_eq_none_iff.mpr hmem, Option.map_none]

theorem base_append_cons (before : List Char) (hlast : '.' ∉ last) :
    base (before ++ '.' :: last) = before := by
  rw [base, beforeLastDot_append_cons before hlast]

theorem exists_last_dot (hmem : '.' ∈ signature) :
    ∃ before last, signature = before ++ '.' :: last ∧ '.' ∉ last := by
  cases hsplit : Text.splitLast '.' signature with
  | none => exact absurd hmem (Text.splitLast_eq_none_iff.mp hsplit)
  | some pieces => exact ⟨pieces.1, pieces.2, Text.splitLast_eq_some_iff.mp hsplit⟩

/-- Where no dot ends a signature, its root and base chain make up its base. -/
theorem base_eq_root_append (hmem : '.' ∈ signature) (hlast : signature.getLast? ≠ some '.') :
    (signature.count '.' = 1 → base signature = root signature ∧ baseChain signature = []) ∧
    (signature.count '.' ≠ 1 →
      base signature = root signature ++ '.' :: baseChain signature) := by
  obtain ⟨first, rest, hsplit, hfirst⟩ := List.eq_append_cons_of_mem hmem
  have htrimmed := (withoutTrailingDots_of_getLast? hlast).trans hsplit
  obtain ⟨hroot, hchain⟩ := root_and_chain hfirst htrimmed
  have hcount : signature.count '.' = rest.count '.' + 1 := by
    rw [hsplit, List.count_append, List.count_cons_self, List.count_eq_zero.mpr hfirst,
      Nat.zero_add]
  rw [hcount, hroot, baseChain, hchain]
  by_cases hrest : '.' ∈ rest
  · obtain ⟨middle, last, rfl, hmiddle⟩ := exists_last_dot hrest
    have hbase : base signature = first ++ '.' :: middle := by
      rw [hsplit, ← List.cons_append, ← List.append_assoc, base_append_cons _ hmiddle]
    simp [hbase, beforeLastDot_append_cons middle hmiddle]
  · have hbase : base signature = first := by rw [hsplit, base_append_cons _ hrest]
    simp [hbase, beforeLastDot_eq_none hrest, List.count_eq_zero.mpr hrest]

end Parts

section Segments

/-- The segments of a signature, without the empty ones at its end. -/
def segments (signature : List Char) : List (List Char) :=
  (signature.splitOn '.').rdropWhile (· = [])

variable {trimmed : List Char}

/-- Dots at the end add empty segments only. -/
theorem segments_append_dots (trimmed : List Char) (count : Nat) :
    segments (trimmed ++ List.replicate count '.') = segments trimmed := by
  induction count with
  | zero => rw [List.replicate_zero, List.append_nil]
  | succ count ih =>
      have hsplit : (trimmed ++ List.replicate count '.' ++ ['.']).splitOn '.' =
          (trimmed ++ List.replicate count '.').splitOn '.' ++ [[]] := by
        rw [List.splitOn_append_cons_self, List.splitOn_nil]
      rw [List.replicate_succ', ← List.append_assoc, ← ih, segments, segments, hsplit]
      exact List.rdropWhile_concat_pos _ _ _ (decide_eq_true rfl)

/-- No segment is left out where some text follows the last dot. -/
theorem segments_of_getLast? (hne : trimmed ≠ []) (hlast : trimmed.getLast? ≠ some '.') :
    segments trimmed = trimmed.splitOn '.' := by
  by_cases hmem : '.' ∈ trimmed
  · obtain ⟨before, last, rfl, hdot⟩ := exists_last_dot hmem
    have hfilled : last ≠ [] := by
      rintro rfl
      exact hlast List.getLast?_concat
    rw [segments, List.splitOn_append_cons_self, List.splitOn_eq_singleton hdot]
    exact List.rdropWhile_concat_neg _ _ _ (by simpa using hfilled)
  · rw [segments, List.splitOn_eq_singleton hmem]
    exact List.rdropWhile_concat_neg _ [] _ (by simpa using hne)

/-- The root is the first segment, the chain are the others joined, and the base chain
those between the first and the last. -/
theorem parts_of_segments (signature : List Char) :
    root signature = (segments signature).headD [] ∧
    chain signature = ['.'].intercalate (segments signature).tail ∧
    baseChain signature = ['.'].intercalate (segments signature).tail.dropLast := by
  obtain ⟨⟨count, hdots⟩, hlast⟩ := trims_withoutTrailingDots signature
  have hsegments := congrArg segments hdots
  rw [segments_append_dots] at hsegments
  rw [baseChain]
  by_cases hmem : '.' ∈ withoutTrailingDots signature
  · obtain ⟨first, rest, hsplit, hfirst⟩ := List.eq_append_cons_of_mem hmem
    obtain ⟨hroot, hchain⟩ := root_and_chain hfirst hsplit
    rw [hsplit] at hsegments hlast
    rw [segments_of_getLast? (by simp) hlast,
      List.splitOn_append_cons_self_of_not_mem hfirst] at hsegments
    rw [hroot, hchain, hsegments, List.headD_cons, List.tail_cons, List.intercalate_splitOn]
    refine ⟨rfl, rfl, ?_⟩
    by_cases hrest : '.' ∈ rest
    · obtain ⟨middle, last, rfl, hdot⟩ := exists_last_dot hrest
      rw [beforeLastDot_append_cons middle hdot, List.splitOn_append_cons_self,
        List.splitOn_eq_singleton hdot, List.dropLast_concat, List.intercalate_splitOn,
        Option.getD_some]
    · rw [beforeLastDot_eq_none hrest, List.splitOn_eq_singleton hrest]
      rfl
  · obtain ⟨hroot, hchain⟩ := root_and_chain_of_not_mem hmem
    rw [hroot, hchain, hsegments]
    by_cases hne : withoutTrailingDots signature = []
    · rw [hne]
      exact ⟨rfl, rfl, rfl⟩
    · rw [segments_of_getLast? hne hlast, List.splitOn_eq_singleton hmem]
      exact ⟨rfl, rfl, rfl⟩

end Segments

/-- Root and chain make up a signature without the dots at its end, base and last segment make
up the whole of it, and root and base chain make up the base. -/
theorem root_chain_base_decompose (signature : List Char) :
    (∃ trimmed, Trims signature trimmed ∧
      ('.' ∉ trimmed → root signature = trimmed ∧ chain signature = []) ∧
      ('.' ∈ trimmed →
        '.' ∉ root signature ∧ root signature ++ '.' :: chain signature = trimmed)) ∧
    ('.' ∈ signature → ∃ last, '.' ∉ last ∧ base signature ++ '.' :: last = signature) ∧
    ('.' ∈ signature → signature.getLast? ≠ some '.' →
      (signature.count '.' = 1 → base signature = root signature ∧ baseChain signature = []) ∧
      (signature.count '.' ≠ 1 →
        base signature = root signature ++ '.' :: baseChain signature)) := by
  refine ⟨⟨withoutTrailingDots signature, trims_withoutTrailingDots signature,
    root_and_chain_of_not_mem, fun hmem => ?_⟩, fun hmem => ?_, base_eq_root_append⟩
  · obtain ⟨first, rest, hsplit, hfirst⟩ := List.eq_append_cons_of_mem hmem
    obtain ⟨hroot, hchain⟩ := root_and_chain hfirst hsplit
    rw [hroot, hchain]
    exact ⟨hfirst, hsplit.symm⟩
  · obtain ⟨before, last, rfl, hlast⟩ := exists_last_dot hmem
    exact ⟨last, hlast, by rw [base_append_cons before hlast]⟩

end Caret.Chain
