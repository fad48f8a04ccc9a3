import Caret.Proofs.Symbols.Latest
import Caret.Proofs.Symbols.Records
import Caret.Proofs.Syntax.Nesting

/-! # The method at an offset

Of the methods of a table that hold an offset, the lookup gives the shortest one. Methods
stand in a table in the order of their starts, so of several it gives one that starts first.
-/

namespace Caret.Symbols

open Text Syntax

/-- The methods of a properly nested tree stand in the order of their starts. -/
theorem methods_pairwise_start {text : String} {root : Tree}
    (hnested : root.ProperlyNested (.ofString text)) :
    (Table.ofTree (.ofString text) root).methods.Pairwise (·.span.start ≤ ·.span.start) := by
  have hplaces := places_pairwise_start hnested.ordered
  have hbelow : (placesAmong root 0 [] root.children).Pairwise
      (·.tree.bytes.start ≤ ·.tree.bytes.start) := by
    rw [Tree.places_eq_cons] at hplaces
    exact hplaces.of_cons
  have hstart : ∀ {place : Place} {method : Method},
      methodAt (.ofString text) place = some method →
      method.span.start = (Index.ofString text).charOf place.tree.bytes.start := by
    intro place method hmethod
    obtain ⟨hkind, -, hspan, -⟩ := methodAt_eq_some hmethod
    rw [hspan, Tree.charSpan, if_neg fun hprogram => by simp [hprogram, isMethod] at hkind]
    rfl
  rw [methods_ofTree, List.pairwise_filterMap]
  refine hbelow.imp fun hle method hmethod other hother => ?_
  rw [hstart hmethod, hstart hother]
  exact Index.charOf_mono hle

namespace Table

variable {table : Table} {offset : Nat}

/-- Whether an entry of the table is the innermost method at an offset: each of the others
that hold the offset is longer, or as long and does not start before it. -/
structure IsInnermost (table : Table) (offset : Nat) (method : Method) : Prop where
  listed : method ∈ table.methods
  holds : method.contains offset
  innermost : ∀ other ∈ table.methods, other.contains offset →
    method.span.length < other.span.length ∨
      method.span.length = other.span.length ∧ method.span.start ≤ other.span.start

theorem exists_methodAt {method : Method} (hmethod : method ∈ table.methods)
    (hholds : method.contains offset) : ∃ found, table.methodAt offset = some found :=
  Option.isSome_iff_exists.mp
    (List.isSome_minOn?_of_mem (List.mem_filter.mpr ⟨hmethod, by simpa using hholds⟩))

/-- The lookup finds an innermost method. -/
theorem isInnermost_of_methodAt (hordered : table.methods.Pairwise (·.span.start ≤ ·.span.start))
    {found : Method} (hfound : table.methodAt offset = some found) :
    table.IsInnermost offset found := by
  obtain ⟨hlisted, hholds⟩ := List.mem_filter.mp (List.minOn?_mem hfound)
  refine ⟨hlisted, hholds, fun other hother hcontains => ?_⟩
  have hmem : other ∈ table.methods.filter (·.contains offset) :=
    List.mem_filter.mpr ⟨hother, hcontains⟩
  have hfiltered := hordered.filter (·.contains offset)
  obtain ⟨before, after, heq, hbefore, hafter⟩ := minOn?_eq_some_split hfound
  rw [heq] at hmem hfiltered
  rcases List.mem_append.mp hmem with hmem | hmem
  · exact .inl (Nat.lt_of_not_le (hbefore other hmem))
  · rcases List.mem_cons.mp hmem with rfl | hmem
    · exact .inr ⟨rfl, Nat.le_refl _⟩
    · have hstart := (List.pairwise_cons.mp (List.pairwise_append.mp hfiltered).2.1).1 other hmem
      rcases Nat.lt_or_eq_of_le (hafter other hmem) with hlt | hlength
      · exact .inl hlt
      · exact .inr ⟨hlength, hstart⟩

end Table

end Caret.Symbols
