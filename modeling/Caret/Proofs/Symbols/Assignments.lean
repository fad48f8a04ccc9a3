import Caret.Proofs.Symbols.Records
import Caret.Proofs.Syntax.Nesting
import Caret.Proofs.Text.Lines

/-! # Where collected variables come from

Every local variable that the walk collects is assigned by a node of the tree.
-/

namespace Caret.Symbols

open Text Syntax

/-- Whether the node of a place is an assignment to some local variable. -/
def Assigns (index : Index) (place : Place) (assigned : Local) : Prop :=
  isAssignment place.tree.kind ∧ localOf index place = some assigned

/-- Every collected variable is assigned by a node of the tree. -/
theorem exists_assigns_of_mem_locals {index : Index} {root : Tree} {assigned : Local}
    (hassigned : assigned ∈ (Table.ofTree index root).locals) :
    ∃ place, Place.Within root place ∧ Assigns index place assigned := by
  rw [locals_ofTree] at hassigned
  obtain ⟨place, hmem, hlocal⟩ := List.mem_filterMap.mp hassigned
  have hplace : place ∈ root.places := by
    rw [Tree.places_eq_cons]
    exact List.mem_cons_of_mem _ hmem
  rw [localAt, Option.ite_none_right_eq_some, Bool.and_eq_true] at hlocal
  obtain ⟨⟨-, hkind⟩, hlocal⟩ := hlocal
  exact ⟨place, Tree.mem_places.mp hplace, hkind, hlocal⟩

/-- What an assignment records about its place: its enclosure, and the positions
between which it stands. -/
theorem Assigns.enclosure_and_region {index : Index} {place : Place} {assigned : Local}
    (hassigns : Assigns index place assigned) :
    assigned.enclosure = place.enclosure index ∧
      assigned.region = ⟨index.lineColumn (place.tree.charSpan index).start,
        index.lineColumn (place.tree.charSpan index).stop⟩ := by
  obtain ⟨-, hlocal⟩ := hassigns
  unfold localOf at hlocal
  obtain ⟨left, -, hlocal⟩ := Option.bind_eq_some_iff.mp hlocal
  obtain ⟨-, -, hlocal⟩ := Option.bind_eq_some_iff.mp hlocal
  obtain ⟨name, -, hlocal⟩ := Option.bind_eq_some_iff.mp hlocal
  obtain ⟨start, hstart, hlocal⟩ := Option.bind_eq_some_iff.mp hlocal
  obtain ⟨stop, hstop, hlocal⟩ := Option.bind_eq_some_iff.mp hlocal
  obtain rfl := Option.some.inj hlocal
  obtain rfl := (Index.positionOf_eq_some hstart).2
  obtain rfl := (Index.positionOf_eq_some hstop).2
  exact ⟨rfl, rfl⟩

theorem Assigns.enclosure_and_stop {index : Index} {place : Place} {assigned : Local}
    (hassigns : Assigns index place assigned) :
    assigned.enclosure = place.enclosure index ∧
      assigned.region.stop = index.lineColumn (place.tree.charSpan index).stop := by
  obtain ⟨henclosure, hregion⟩ := hassigns.enclosure_and_region
  rw [hregion]
  exact ⟨henclosure, rfl⟩

/-- An assignment is no program, so it stands just between its own bytes. -/
theorem Assigns.region_eq {index : Index} {place : Place} {assigned : Local}
    (hassigns : Assigns index place assigned) :
    assigned.region = ⟨index.lineColumn (index.charOf place.tree.bytes.start),
      index.lineColumn (index.charOf place.tree.bytes.stop)⟩ := by
  have hkind : place.tree.kind ≠ "program" := by
    intro hprogram
    have hassignment := hassigns.1
    rw [hprogram] at hassignment
    contradiction
  rw [hassigns.enclosure_and_region.2, Tree.charSpan, if_neg hkind]
  rfl

section Ordered

variable {text : String} {root : Tree} (hordered : ∀ node ∈ root.preorder, node.Ordered)
include hordered

/-- An assignment ends no earlier than it starts. -/
theorem Assigns.start_le_stop {place : Place} {assigned : Local}
    (hplace : Place.Within root place) (hassigns : Assigns (.ofString text) place assigned) :
    assigned.region.start ≤ assigned.region.stop := by
  rw [hassigns.region_eq]
  have hbytes := (hordered _ hplace.tree_mem_preorder).start_le_stop
  exact Index.lineColumn_mono (Index.charOf_mono hbytes)

/-- Two assignments stand one after the other, or one of them stands inside the other. -/
theorem Assigns.apart_or_covers {first second : Place} {assigned another : Local}
    (hfirst : Place.Within root first) (hassigned : Assigns (.ofString text) first assigned)
    (hsecond : Place.Within root second) (hanother : Assigns (.ofString text) second another) :
    assigned.region.stop ≤ another.region.start ∨ another.region.stop ≤ assigned.region.start ∨
      assigned.region.Covers another.region ∨ another.region.Covers assigned.region := by
  have hmono : ∀ {byte other : Nat}, byte ≤ other →
      (Index.ofString text).lineColumn ((Index.ofString text).charOf byte) ≤
        (Index.ofString text).lineColumn ((Index.ofString text).charOf other) :=
    fun hle => Index.lineColumn_mono (Index.charOf_mono hle)
  rw [hassigned.region_eq, hanother.region_eq]
  rcases Syntax.apart_or_around hordered hfirst hsecond with hbefore | hafter | haround | haround
  · exact .inl (hmono hbefore)
  · exact .inr (.inl (hmono hafter))
  · obtain ⟨hstart, hstop⟩ := bytes_inside hordered hsecond haround
    exact .inr (.inr (.inl ⟨hmono hstart, hmono hstop⟩))
  · obtain ⟨hstart, hstop⟩ := bytes_inside hordered hfirst haround
    exact .inr (.inr (.inr ⟨hmono hstart, hmono hstop⟩))

/-- An assignment that starts before another one ends before it, or the other one is a
part of it. -/
theorem stop_le_or_covers_of_start_lt {first second : Local}
    (hfirst : first ∈ (Table.ofTree (.ofString text) root).locals)
    (hsecond : second ∈ (Table.ofTree (.ofString text) root).locals)
    (hlt : first.region.start < second.region.start) :
    first.region.stop ≤ second.region.start ∨ first.region.Covers second.region := by
  obtain ⟨place, hplace, hassigns⟩ := exists_assigns_of_mem_locals hfirst
  obtain ⟨other, hother, hassignsOther⟩ := exists_assigns_of_mem_locals hsecond
  have hnot : ¬ second.region.start ≤ first.region.start := Position.not_le_iff.mpr hlt
  rcases hassigns.apart_or_covers hordered hplace hother hassignsOther with
    hbefore | hafter | hcovers | hcovers
  · exact .inl hbefore
  · exact absurd (Std.le_trans (hassignsOther.start_le_stop hordered hother) hafter) hnot
  · exact .inr hcovers
  · exact absurd hcovers.1 hnot

end Ordered

end Caret.Symbols
