import Caret.Proofs.Text.Lines
import Caret.Symbols.Trail

/-! # The latest assignment

Of the assignments to a name that are seen from a place, one counts: the one that
starts last, and of several that start together the last of the table.
-/

namespace Caret.Symbols

open Text Syntax

/-- Where the least value of a list stands: every value before it is greater, and none
after it is less. -/
theorem minOn?_eq_some_split {α β : Type} [LE β] [DecidableLE β] [Std.IsLinearPreorder β]
    {key : α → β} {values : List α} {least : α} (hleast : values.minOn? key = some least) :
    ∃ before after, values = before ++ least :: after ∧
      (∀ value ∈ before, ¬ key value ≤ key least) ∧
      ∀ value ∈ after, key least ≤ key value := by
  induction values generalizing least with
  | nil => simp at hleast
  | cons value rest ih =>
      rw [List.minOn?_cons, Option.some.injEq] at hleast
      cases hrest : rest.minOn? key with
      | none =>
          have hempty : rest = [] := by
            have hiff : (rest.minOn? key).isSome ↔ rest ≠ [] := List.isSome_minOn?_iff
            simpa [hrest] using hiff
          rw [hrest, Option.elim_none] at hleast
          subst hleast hempty
          exact ⟨[], [], rfl, by simp, by simp⟩
      | some other =>
          obtain ⟨before, after, rfl, hbefore, hafter⟩ := ih hrest
          rw [hrest, Option.elim_some, minOn_eq_if] at hleast
          split at hleast
          next hle =>
            subst hleast
            refine ⟨[], before ++ other :: after, rfl, by simp, ?_⟩
            intro later hlater
            have hother : key other ≤ key later := by
              rcases List.mem_append.mp hlater with hmem | hmem
              · exact Std.le_total.resolve_right (hbefore later hmem)
              · rcases List.mem_cons.mp hmem with rfl | hmem
                · exact Std.le_refl _
                · exact hafter later hmem
            exact Std.le_trans hle hother
          next hlt =>
            subst hleast
            refine ⟨value :: before, after, rfl, ?_, hafter⟩
            intro earlier hearlier
            rcases List.mem_cons.mp hearlier with rfl | hmem
            · exact hlt
            · exact hbefore earlier hmem

open scoped Std.OppositeOrderInstances in
/-- Where the greatest value of a list stands: every value before it is less, and none
after it is greater. -/
theorem maxOn?_eq_some_split {α β : Type} [order : LE β] [DecidableLE β] [Std.IsLinearPreorder β]
    {key : α → β} {values : List α} {greatest : α}
    (hgreatest : values.maxOn? key = some greatest) :
    ∃ before after, values = before ++ greatest :: after ∧
      (∀ value ∈ before, ¬ key greatest ≤ key value) ∧
      ∀ value ∈ after, key value ≤ key greatest := by
  have hsplit := @minOn?_eq_some_split α β order.opposite _ _ key values greatest
    (List.maxOn?_eq_minOn?.symm.trans hgreatest)
  simpa only [LE.le_opposite_iff] using hsplit
namespace Table

variable {table : Table} {enclosure : Enclosure} {position : Position} {name : String}

/-- Whether an entry of the table is the latest assignment to a name that is seen from
a place: each of the others starts earlier, or starts with it and stands before it. -/
structure IsLatest (table : Table) (enclosure : Enclosure) (position : Position) (name : String)
    (assigned : Local) (index : Nat) : Prop where
  listed : table.locals[index]? = some assigned
  named : assigned.name = name
  visible : assigned.visibleFrom enclosure position
  latest : ∀ other earlier, table.locals[earlier]? = some other → other.name = name →
    other.visibleFrom enclosure position →
      other.region.start < assigned.region.start ∨
        other.region.start = assigned.region.start ∧ earlier ≤ index

/-- Places that see the same variables see them at the same indices. -/
theorem visible_eq_of_locals_eq {other : Enclosure} {elsewhere : Position}
    (hlocals : table.locals.filter (·.visibleFrom enclosure position) =
      table.locals.filter (·.visibleFrom other elsewhere)) :
    table.visible enclosure position = table.visible other elsewhere := by
  refine List.filter_congr fun entry hentry => ?_
  have hmem : entry.1 ∈ table.locals := List.fst_mem_of_mem_zipIdx hentry
  have hseen : entry.1 ∈ table.locals.filter (·.visibleFrom enclosure position) ↔
      entry.1 ∈ table.locals.filter (·.visibleFrom other elsewhere) := by rw [hlocals]
  simp only [List.mem_filter, hmem, true_and] at hseen
  exact Bool.eq_iff_iff.mpr hseen

theorem mem_visible_named {entry : Local × Nat} :
    entry ∈ ((table.visible enclosure position).filter (·.1.name = name)).reverse ↔
      table.locals[entry.2]? = some entry.1 ∧ entry.1.visibleFrom enclosure position ∧
        entry.1.name = name := by
  obtain ⟨assigned, index⟩ := entry
  simp only [visible, List.mem_reverse, List.mem_filter, List.mem_zipIdx_iff_getElem?,
    decide_eq_true_eq, and_assoc]

theorem pairwise_visible_named (table : Table) (enclosure : Enclosure) (position : Position)
    (name : String) :
    ((table.visible enclosure position).filter (·.1.name = name)).reverse.Pairwise
      (·.2 > ·.2) := by
  have hordered : table.locals.zipIdx.Pairwise (fun first second => first.2 < second.2) := by
    apply List.pairwise_map.mp
    rw [List.zipIdx_map_snd]
    exact List.pairwise_lt_range'
  exact List.pairwise_reverse.mpr ((hordered.filter _).filter _)

theorem isLatest_of_latest {assigned : Local} {index : Nat}
    (hlatest : table.latest enclosure position name = some (assigned, index)) :
    table.IsLatest enclosure position name assigned index := by
  obtain ⟨hlisted, hvisible, hnamed⟩ := mem_visible_named.mp (List.maxOn?_mem hlatest)
  refine ⟨hlisted, hnamed, hvisible, ?_⟩
  intro other earlier hother hname hseen
  have hmem := mem_visible_named.mpr
    (show table.locals[(other, earlier).2]? = some (other, earlier).1 ∧ _ from
      ⟨hother, hseen, hname⟩)
  have hordered := pairwise_visible_named table enclosure position name
  obtain ⟨before, after, heq, hbefore, hafter⟩ := maxOn?_eq_some_split hlatest
  rw [heq] at hmem hordered
  obtain ⟨-, hordered, -⟩ := List.pairwise_append.mp hordered
  rcases List.mem_append.mp hmem with hmem | hmem
  · exact .inl (Position.not_le_iff.mp (hbefore _ hmem))
  · rcases List.mem_cons.mp hmem with heq | hmem
    · obtain ⟨rfl, rfl⟩ := Prod.mk.inj heq
      exact .inr ⟨rfl, Nat.le_refl _⟩
    · have hindex := (List.pairwise_cons.mp hordered).1 _ hmem
      rcases Position.le_iff_lt_or_eq.mp (hafter _ hmem) with hlt | hsame
      · exact .inl hlt
      · exact .inr ⟨hsame, Nat.le_of_lt hindex⟩

theorem latest_eq_none_iff :
    table.latest enclosure position name = none ↔
      ∀ assigned ∈ table.locals, assigned.visibleFrom enclosure position →
        assigned.name ≠ name := by
  rw [latest, ← Option.not_isSome_iff_eq_none, List.isSome_maxOn?_iff, ne_eq,
    Classical.not_not, List.eq_nil_iff_forall_not_mem]
  constructor
  · intro hnone assigned hmem hvisible hnamed
    obtain ⟨index, hindex⟩ := List.mem_iff_getElem?.mp hmem
    exact hnone (assigned, index) (mem_visible_named.mpr ⟨hindex, hvisible, hnamed⟩)
  · intro hnone entry hmem
    obtain ⟨hlisted, hvisible, hnamed⟩ := mem_visible_named.mp hmem
    exact hnone entry.1 (List.mem_of_getElem? hlisted) hvisible hnamed

theorem IsLatest.unique {assigned other : Local} {index later : Nat}
    (hassigned : table.IsLatest enclosure position name assigned index)
    (hother : table.IsLatest enclosure position name other later) :
    assigned = other ∧ index = later := by
  have hfirst := hassigned.latest other later hother.listed hother.named hother.visible
  have hsecond := hother.latest assigned index hassigned.listed hassigned.named hassigned.visible
  have hindex : index = later := by
    rcases hfirst with hlt | ⟨heq, hle⟩
    · rcases hsecond with hback | ⟨heq, -⟩
      · exact absurd hback (Position.not_lt_of_lt hlt)
      · exact absurd (heq ▸ hlt) (Position.not_lt_self _)
    · rcases hsecond with hlt | ⟨-, hback⟩
      · exact absurd (heq ▸ hlt) (Position.not_lt_self _)
      · omega
  subst hindex
  exact ⟨Option.some.inj (hassigned.listed.symm.trans hother.listed), rfl⟩

/-- The lookup finds the latest assignment. -/
theorem latest_eq_some_iff {assigned : Local} {index : Nat} :
    table.latest enclosure position name = some (assigned, index) ↔
      table.IsLatest enclosure position name assigned index := by
  refine ⟨isLatest_of_latest, ?_⟩
  intro hassigned
  cases hlatest : table.latest enclosure position name with
  | none =>
      have hnone := latest_eq_none_iff.mp hlatest
      exact absurd hassigned.named
        (hnone assigned (List.mem_of_getElem? hassigned.listed) hassigned.visible)
  | some entry =>
      obtain ⟨other, later⟩ := entry
      obtain ⟨rfl, rfl⟩ := hassigned.unique (isLatest_of_latest hlatest)
      rfl

end Table

end Caret.Symbols
