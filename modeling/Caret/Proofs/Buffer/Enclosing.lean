import Caret.Buffer
import Caret.Proofs.Syntax.Nesting

/-! # The nodes around an offset

In a properly nested tree the nodes around an offset are those that hold the
character before it. They are listed without gaps, from the innermost one up to
the root.
-/

namespace Caret.Buffer

open Text Syntax

variable {buffer : Buffer}

theorem byteOf_of_le {offset : Nat} (hoffset : offset ≤ buffer.size) :
    ∃ byte, buffer.index.byteOf offset = some byte := by
  rw [size, buffer.index_eq] at hoffset
  rw [buffer.index_eq]
  exact ⟨_, Index.byteOf_ofString hoffset⟩

/-- Up to the end of the text there is an innermost node, and the nodes around it
are listed after it. -/
theorem enclosing_eq_upward {offset : Nat} (hoffset : offset ≤ buffer.size) :
    ∃ innermost : Place, (buffer.enclosing offset).head? = some innermost ∧
      buffer.enclosing offset = innermost.upward ∧ Place.Within buffer.tree innermost := by
  obtain ⟨byte, hbyte⟩ := byteOf_of_le hoffset
  simp only [enclosing, hbyte]
  generalize Span.mk _ byte = stretch
  obtain ⟨innermost, hhead, hupward⟩ := Tree.covering_eq_upward buffer.tree stretch
  exact ⟨innermost, hhead, hupward, within_of_mem_descend .root (List.mem_of_head? hhead)⟩

theorem enclosing_succ {offset start stop : Nat} (hstart : buffer.index.byteOf offset = some start)
    (hstop : buffer.index.byteOf (offset + 1) = some stop) :
    buffer.enclosing (offset + 1) = buffer.tree.covering ⟨start, stop⟩ := by
  simp only [enclosing, hstop, hstart, Option.getD_some]

/-- A node is around the place after a character just if it holds the character. -/
theorem mem_enclosing_iff (hnested : buffer.tree.ProperlyNested buffer.index) {offset : Nat}
    (hoffset : offset < buffer.size) {place : Place} (hplace : Place.Within buffer.tree place) :
    place ∈ buffer.enclosing (offset + 1) ↔
      (place.tree.charSpan buffer.index).contains offset := by
  obtain ⟨start, hstart⟩ := byteOf_of_le (Nat.le_of_lt hoffset)
  obtain ⟨stop, hstop⟩ := byteOf_of_le (Nat.succ_le_of_lt hoffset)
  rw [enclosing_succ hstart hstop]
  rw [size, buffer.index_eq] at hoffset
  rw [buffer.index_eq] at hnested hstart hstop ⊢
  have hroot : (buffer.tree.charSpan (.ofString buffer.text)).contains offset := by
    rw [hnested.charSpan_root]
    exact Span.contains_iff.mpr ⟨Nat.zero_le _, hoffset⟩
  constructor
  · intro hmem
    rcases covers_of_mem_descend hmem with rfl | hcovers
    · exact hroot
    · rcases hnested.charSpan_eq hplace with rfl | hspan
      · exact hroot
      · rw [hspan]
        exact (hnested.covers_iff_contains hplace hstart hstop).mp hcovers
  · intro hholds
    rcases hnested.charSpan_eq hplace with rfl | hspan
    · exact self_mem_descend _ _ _
    · rw [hspan, ← hnested.covers_iff_contains hplace hstart hstop] at hholds
      have hstretch : start < stop := (Index.byteOf_lt_iff hstart hstop).mpr (Nat.lt_succ_self _)
      exact hnested.mem_covering hstretch hplace hholds

/-- Of two nodes that hold one character, one is around the other. -/
theorem upward_total_of_contains (hnested : buffer.tree.ProperlyNested buffer.index)
    {first second : Place} (hfirst : Place.Within buffer.tree first)
    (hsecond : Place.Within buffer.tree second) {offset : Nat}
    (hholds : (first.tree.charSpan buffer.index).contains offset)
    (hother : (second.tree.charSpan buffer.index).contains offset) :
    first ∈ second.upward ∨ second ∈ first.upward := by
  have hoffset : offset < buffer.size := by
    rw [buffer.index_eq] at hnested hholds
    rw [size, buffer.index_eq]
    have hstop := hnested.charSpan_stop_le_size hfirst
    have hlt := (Span.contains_iff.mp hholds).2
    omega
  obtain ⟨innermost, -, hupward, -⟩ := enclosing_eq_upward (Nat.succ_le_of_lt hoffset)
  rw [← mem_enclosing_iff hnested hoffset hfirst, hupward] at hholds
  rw [← mem_enclosing_iff hnested hoffset hsecond, hupward] at hother
  exact Place.mem_upward_total hholds hother

/-- The named node that is looked up for a character holds it. -/
theorem contains_of_nodeAt (hnested : buffer.tree.ProperlyNested buffer.index) {offset : Nat}
    {place : Place} (hnode : buffer.nodeAt offset = some place) :
    Place.Within buffer.tree place ∧ (place.tree.charSpan buffer.index).contains offset := by
  simp only [nodeAt, Option.bind_eq_bind, Option.bind_eq_some_iff, Option.pure_def,
    Option.some.injEq] at hnode
  obtain ⟨start, hstart, stop, hstop, rfl⟩ := hnode
  have hoffset : offset < buffer.size := by
    have hlast := hstop
    rw [buffer.index_eq] at hlast
    rw [size, buffer.index_eq]
    exact Index.le_size_of_byteOf hlast
  rw [Tree.coveringNamed]
  cases hfound : (buffer.tree.covering ⟨start, stop⟩).find? (·.tree.named) with
  | some place =>
      have hmem := List.mem_of_find?_eq_some hfound
      have hplace := within_of_mem_descend .root hmem
      rw [← enclosing_succ hstart hstop] at hmem
      exact ⟨hplace, (mem_enclosing_iff hnested hoffset hplace).mp hmem⟩
  | none =>
      have hroot : Place.root buffer.tree ∈ buffer.enclosing (offset + 1) := by
        rw [enclosing_succ hstart hstop]
        exact self_mem_descend _ _ _
      exact ⟨.root, (mem_enclosing_iff hnested hoffset .root).mp hroot⟩

end Caret.Buffer
