import Caret.Symbols.Trail
import Mathlib.Logic.Relation

/-! # Trails through any lookup

Every name leads to at most one other name, so the names that a trail runs through
form a line, which may end in a cycle. A trail stops where the line ends, or where it
enters the cycle again.
-/

namespace Caret.Symbols

open Relation (ReflTransGen TransGen)

/-- Steps that are taken one after the other, from a name to the last one. -/
inductive Path (leads : String → String → Prop) : String → List TrailStep → String → Prop where
  | nil {name} : Path leads name [] name
  | cons {name target steps last} (first : leads name target) (rest : Path leads target steps last) :
      Path leads name (⟨name, target⟩ :: steps) last

namespace Path

variable {leads : String → String → Prop} {name last : String} {steps : List TrailStep}

theorem reflTransGen (hpath : Path leads name steps last) : ReflTransGen leads name last := by
  induction hpath with
  | nil => exact .refl
  | cons hfirst _ ih => exact .head hfirst ih

theorem leads_of_mem (hpath : Path leads name steps last) {step : TrailStep}
    (hstep : step ∈ steps) : leads step.name step.target := by
  induction hpath with
  | nil => contradiction
  | cons hfirst _ ih =>
      rcases List.mem_cons.mp hstep with rfl | hlater
      · exact hfirst
      · exact ih hlater

/-- Of two steps that follow each other the second begins where the first one leads. -/
theorem name_eq_target (hpath : Path leads name steps last) {step next : TrailStep}
    (hfollowed : [step, next] <:+: steps) : next.name = step.target := by
  induction hpath with
  | nil => simp at hfollowed
  | cons _ hrest ih =>
      rcases List.infix_cons_iff.mp hfollowed with hfront | hlater
      · obtain ⟨rfl, hnext⟩ := List.cons_prefix_cons.mp hfront
        cases hrest with
        | nil => simp at hnext
        | cons =>
            obtain ⟨rfl, -⟩ := List.cons_prefix_cons.mp hnext
            rfl
      · exact ih hlater

/-- A path that comes back has gone in a circle. -/
theorem transGen (hpath : Path leads name steps last) (hsteps : steps ≠ []) :
    TransGen leads name last := by
  cases hpath with
  | nil => contradiction
  | cons hfirst hrest => exact .head' hfirst hrest.reflTransGen

/-- The rest of a path from a name on its way. -/
theorem from_name (hpath : Path leads name steps last) {middle : String}
    (hmiddle : middle ∈ steps.map (·.name)) :
    ∃ back, back <:+ steps ∧ middle ∈ back.map (·.name) ∧ Path leads middle back last := by
  induction hpath with
  | nil => contradiction
  | cons hfirst hrest ih =>
      rcases List.mem_cons.mp hmiddle with rfl | hlater
      · exact ⟨_, List.suffix_refl _, hmiddle, .cons hfirst hrest⟩
      · obtain ⟨back, hsuffix, hmem, hback⟩ := ih hlater
        exact ⟨back, hsuffix.trans (List.suffix_cons _ _), hmem, hback⟩

end Path

/-- Whether the variable found for a name has a signature, and which. -/
def Leads (lookup : String → Option (Local × Nat)) (name target : String) : Prop :=
  ∃ assigned index, lookup name = some (assigned, index) ∧ assigned.signature = some target

/-- Whether two names are never found at one index. -/
def Separates (lookup : String → Option (Local × Nat)) : Prop :=
  ∀ ⦃name other assigned another index⦄, lookup name = some (assigned, index) →
    lookup other = some (another, index) → name = other

section Follow

variable {lookup : String → Option (Local × Nat)} {unseen : List Nat} {name last : String}
  {steps : List TrailStep}

/-- A trail stays at a name if no variable may be followed from there. -/
theorem follow_stays (hstays : ∀ assigned index, lookup name = some (assigned, index) →
    index ∈ unseen → assigned.signature = none) : (follow lookup unseen name).result = name := by
  fun_cases follow lookup unseen name with
  | case1 => rfl
  | case2 => rfl
  | case3 assigned index hfound hunseen target hsignature =>
      rw [hstays assigned index hfound hunseen] at hsignature
      contradiction
  | case4 => rfl

theorem path_follow (lookup : String → Option (Local × Nat)) (unseen : List Nat) (name : String) :
    Path (Leads lookup) name (follow lookup unseen name).steps
      (follow lookup unseen name).result := by
  fun_induction follow lookup unseen name with
  | case1 => exact .nil
  | case2 => exact .nil
  | case3 unseen name assigned index hfound hunseen target hsignature _ _ ih =>
      exact .cons ⟨assigned, index, hfound, hsignature⟩ ih
  | case4 => exact .nil

/-- Each step uses up one of the indices that may still be followed. -/
theorem length_follow_le (lookup : String → Option (Local × Nat)) (unseen : List Nat)
    (name : String) : (follow lookup unseen name).steps.length ≤ unseen.length := by
  fun_induction follow lookup unseen name with
  | case1 => exact Nat.zero_le _
  | case2 => exact Nat.zero_le _
  | case3 unseen name assigned index hfound hunseen target hsignature hshorter rest ih =>
      have hrest : rest.steps.length < unseen.length := Nat.lt_of_le_of_lt ih hshorter
      exact hrest
  | case4 => exact Nat.zero_le _

theorem unseen_of_mem_follow {step : TrailStep}
    (hstep : step ∈ (follow lookup unseen name).steps) :
    ∃ assigned index, lookup step.name = some (assigned, index) ∧ index ∈ unseen := by
  fun_induction follow lookup unseen name with
  | case1 => contradiction
  | case2 => contradiction
  | case3 unseen name assigned index hfound hunseen target hsignature _ rest ih =>
      rcases List.mem_cons.mp hstep with rfl | hlater
      · exact ⟨assigned, index, hfound, hunseen⟩
      · obtain ⟨other, later, hother, hmem⟩ := ih hlater
        exact ⟨other, later, hother, List.mem_of_mem_erase hmem⟩
  | case4 => contradiction

/-- No name is followed twice. -/
theorem nodup_names_follow (lookup : String → Option (Local × Nat)) (name : String)
    (hnodup : unseen.Nodup) :
    ((follow lookup unseen name).steps.map (·.name)).Nodup := by
  fun_induction follow lookup unseen name with
  | case1 => exact List.nodup_nil
  | case2 => exact List.nodup_nil
  | case3 unseen name assigned index hfound hunseen target hsignature _ rest ih =>
      refine List.nodup_cons.mpr ⟨?_, ih (hnodup.erase _)⟩
      intro hagain
      obtain ⟨step, hstep, hname⟩ := List.mem_map.mp hagain
      obtain ⟨other, later, hother, hmem⟩ := unseen_of_mem_follow hstep
      rw [hname, hfound] at hother
      obtain ⟨-, rfl⟩ := Prod.mk.inj (Option.some.inj hother)
      exact hnodup.not_mem_erase hmem
  | case4 => exact List.nodup_nil

/-- Where a trail stops: at a name that is not assigned, at a variable without signature,
or at a variable that was followed before. -/
theorem follow_stops (hseparates : Separates lookup) (unseen : List Nat) (name : String) :
    lookup (follow lookup unseen name).result = none ∨
      ∃ assigned index, lookup (follow lookup unseen name).result = some (assigned, index) ∧
        ((assigned.signature = none ∧ (follow lookup unseen name).steps.length < unseen.length) ∨
          index ∉ unseen ∨
          (follow lookup unseen name).result ∈ (follow lookup unseen name).steps.map (·.name)) := by
  fun_induction follow lookup unseen name with
  | case1 unseen name hnone => exact .inl hnone
  | case2 unseen name assigned index hfound hunseen hsignature =>
      exact .inr ⟨assigned, index, hfound, .inl ⟨hsignature, List.length_pos_of_mem hunseen⟩⟩
  | case3 unseen name assigned index hfound hunseen target hsignature hshorter rest ih =>
      rcases ih with hnone | ⟨other, later, hother, hstop⟩
      · exact .inl hnone
      · refine .inr ⟨other, later, hother, ?_⟩
        rcases hstop with ⟨hunassigned, hlength⟩ | hseen | hmem
        · have hlonger : rest.steps.length + 1 < unseen.length := by
            have : rest.steps.length < (unseen.erase index).length := hlength
            omega
          exact .inl ⟨hunassigned, hlonger⟩
        · by_cases hindex : later = index
          · -- The variable that was just followed is found under one name only.
            subst hindex
            have hname : name = rest.result := hseparates hfound hother
            exact .inr (.inr (List.mem_cons.mpr (.inl hname.symm)))
          · rw [List.mem_erase_of_ne hindex] at hseen
            exact .inr (.inl hseen)
        · exact .inr (.inr (List.mem_cons_of_mem _ hmem))
  | case4 unseen name assigned index hfound hseen =>
      exact .inr ⟨assigned, index, hfound, .inr (.inl hseen)⟩

theorem follow_of_leads {assigned : Local} {index : Nat} {target : String}
    (hfound : lookup name = some (assigned, index)) (hunseen : index ∈ unseen)
    (htarget : assigned.signature = some target) :
    (follow lookup unseen name).result = (follow lookup (unseen.erase index) target).result := by
  rw [follow, hfound]
  simp only [hunseen, htarget, dif_pos]

/-- A path without repeated names is followed to its end if that is where it goes in a
circle. -/
theorem follow_of_path (hseparates : Separates lookup) (hnodup : unseen.Nodup)
    (hpath : Path (Leads lookup) name steps last) (hnames : (steps.map (·.name)).Nodup)
    (hunseen : ∀ step ∈ steps, ∀ assigned index, lookup step.name = some (assigned, index) →
      index ∈ unseen)
    (hlast : ∀ assigned index, lookup last = some (assigned, index) →
      last ∈ steps.map (·.name) ∨ index ∉ unseen) :
    (follow lookup unseen name).result = last := by
  induction hpath generalizing unseen with
  | @nil name =>
      apply follow_stays
      intro assigned index hfound hmem
      exact absurd hmem ((hlast assigned index hfound).resolve_left List.not_mem_nil)
  | @cons name target rest last hfirst hrest ih =>
      obtain ⟨assigned, index, hfound, htarget⟩ := hfirst
      obtain ⟨hfresh, hnames⟩ := List.nodup_cons.mp hnames
      have hindex : index ∈ unseen := hunseen _ List.mem_cons_self assigned index hfound
      rw [follow_of_leads hfound hindex htarget]
      apply ih (hnodup.erase index) hnames
      · intro step hstep other later hother
        have hmem := hunseen step (List.mem_cons_of_mem _ hstep) other later hother
        refine (List.mem_erase_of_ne ?_).mpr hmem
        rintro rfl
        exact hfresh (List.mem_map.mpr ⟨step, hstep, hseparates hother hfound⟩)
      · intro other later hother
        rcases hlast other later hother with hmem | hseen
        · rcases List.mem_cons.mp hmem with rfl | hmem
          · rw [hfound] at hother
            obtain ⟨-, rfl⟩ := Prod.mk.inj (Option.some.inj hother)
            exact .inr hnodup.not_mem_erase
          · exact .inl hmem
        · exact .inr (fun herased => hseen (List.mem_of_mem_erase herased))

/-- Following the result of a trail again leads to the result itself. -/
theorem follow_result (hseparates : Separates lookup) (hnodup : unseen.Nodup)
    (hunseen : ∀ name assigned index, lookup name = some (assigned, index) → index ∈ unseen) :
    (follow lookup unseen (follow lookup unseen name).result).result =
      (follow lookup unseen name).result := by
  have hpath := path_follow lookup unseen name
  have hnames := nodup_names_follow lookup name hnodup
  have hstops := follow_stops hseparates unseen name
  generalize follow lookup unseen name = trail at hpath hnames hstops ⊢
  rcases hstops with hnone | ⟨assigned, index, hfound, hstop⟩
  · apply follow_stays
    intro other later hother _
    rw [hnone] at hother
    contradiction
  · rcases hstop with ⟨hunassigned, -⟩ | hseen | hmem
    · apply follow_stays
      intro other later hother _
      rw [hfound] at hother
      obtain ⟨rfl, -⟩ := Prod.mk.inj (Option.some.inj hother)
      exact hunassigned
    · exact absurd (hunseen _ _ _ hfound) hseen
    · -- The rest of the trail from there is a circle.
      obtain ⟨back, hsuffix, hback, hcircle⟩ := hpath.from_name hmem
      apply follow_of_path hseparates hnodup hcircle
      · exact hnames.sublist (hsuffix.sublist.map _)
      · intro step _ assigned index hfound
        exact hunseen _ _ _ hfound
      · intro _ _ _
        exact .inl hback

end Follow

end Caret.Symbols
