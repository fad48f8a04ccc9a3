import Caret.Cursor.Calculation
import Caret.Proofs.Symbols.Latest
import Caret.Proofs.Symbols.Trails

/-! # Trails seen from a cursor

A trail always looks for the latest assignment that is seen from the cursor. So it
follows no assignment twice, and where it settles it stays.
-/

namespace Caret.Cursor

open Symbols
open Relation (TransGen)

/-- Whether a variable, at an index of the table, is what a name stands for at a cursor:
the latest visible assignment to it. -/
def StandsFor (cursor : Cursor) (name : String) (assigned : Local) (index : Nat) : Prop :=
  cursor.buffer.symbols.IsLatest cursor.enclosure cursor.position name assigned index

/-- Whether what a name stands for at a cursor was assigned an expression with some
signature. -/
def Leads (cursor : Cursor) (name target : String) : Prop :=
  ∃ assigned index, cursor.StandsFor name assigned index ∧ assigned.signature = some target

/-- What it means that a trail settles. -/
structure Settles (cursor : Cursor) (name : String) (trail : Trail) : Prop where
  path : Path cursor.Leads name trail.steps trail.result
  once : (trail.steps.map (·.name)).Nodup
  bounded : trail.steps.length ≤ cursor.buffer.symbols.locals.length
  stable : (cursor.trail trail.result).result = trail.result
  ended : (∀ assigned ∈ cursor.locals, assigned.name ≠ trail.result) ∨
    (∃ assigned index, cursor.StandsFor trail.result assigned index ∧
      assigned.signature = none ∧
      trail.steps.length < cursor.buffer.symbols.locals.length) ∨
    TransGen cursor.Leads trail.result trail.result

variable {cursor : Cursor} {name : String}

/-- The variable that a name stands for at a cursor. -/
def latest (cursor : Cursor) (name : String) : Option (Local × Nat) :=
  cursor.buffer.symbols.latest cursor.enclosure cursor.position name

theorem latest_eq_some_iff {assigned : Local} {index : Nat} :
    cursor.latest name = some (assigned, index) ↔ cursor.StandsFor name assigned index :=
  Table.latest_eq_some_iff

theorem leads_latest : Symbols.Leads cursor.latest = cursor.Leads := by
  funext name target
  simp only [Symbols.Leads, Leads, latest_eq_some_iff]

theorem separates_latest (cursor : Cursor) : Separates cursor.latest := by
  intro name other assigned another index hname hother
  rw [latest_eq_some_iff] at hname hother
  have hsame : assigned = another := Option.some.inj (hname.listed.symm.trans hother.listed)
  rw [← hname.named, hsame, hother.named]

theorem index_lt_of_latest {assigned : Local} {index : Nat}
    (hlatest : cursor.latest name = some (assigned, index)) :
    index ∈ List.range cursor.buffer.symbols.locals.length := by
  rw [latest_eq_some_iff] at hlatest
  exact List.mem_range.mpr (List.getElem?_eq_some_iff.mp hlatest.listed).1

theorem not_named_of_latest_eq_none (hnone : cursor.latest name = none) :
    ∀ assigned ∈ cursor.locals, assigned.name ≠ name := by
  intro assigned hmem
  obtain ⟨hlisted, hvisible⟩ := List.mem_filter.mp hmem
  exact Table.latest_eq_none_iff.mp hnone assigned hlisted hvisible

theorem path_trail (cursor : Cursor) (name : String) :
    Path cursor.Leads name (cursor.trail name).steps (cursor.trail name).result := by
  rw [← leads_latest]
  exact path_follow cursor.latest _ name

/-- Every trail settles, whatever the table. It is a path through the assignments that are
seen from the cursor, none of which is taken twice. Its result leads to itself, and is a
name that is not assigned, a name whose variable has no signature, or a name on a
circle. -/
theorem trail_settles (cursor : Cursor) (name : String) :
    cursor.Settles name (cursor.trail name) := by
  have hpath := cursor.path_trail name
  have hbounded : (cursor.trail name).steps.length ≤ _ := length_follow_le cursor.latest _ name
  have hstops := follow_stops (separates_latest cursor)
    (List.range cursor.buffer.symbols.locals.length) name
  rw [List.length_range] at hstops hbounded
  refine ⟨hpath, nodup_names_follow cursor.latest name List.nodup_range, hbounded,
    follow_result (separates_latest cursor) List.nodup_range (fun _ _ _ => index_lt_of_latest), ?_⟩
  rcases hstops with hnone | ⟨assigned, index, hfound, hstop⟩
  · exact .inl (not_named_of_latest_eq_none hnone)
  · rcases hstop with ⟨hunassigned, hlength⟩ | hseen | hmem
    · exact .inr (.inl ⟨assigned, index, latest_eq_some_iff.mp hfound, hunassigned, hlength⟩)
    · exact absurd (index_lt_of_latest hfound) hseen
    · obtain ⟨back, -, hback, hcircle⟩ := hpath.from_name hmem
      have hsteps : back ≠ [] := by
        rintro rfl
        contradiction
      exact .inr (.inr (hcircle.transGen hsteps))

end Caret.Cursor
