import Caret.Proofs.Cursor.Trails
import Caret.Proofs.Symbols.Assignments

/-! # The bindings on a trail

Every name on a trail is looked up from the cursor, not from the assignment that led to
it. A variable that was assigned again in between therefore stands for its new value.
-/

namespace Caret.Cursor

open Text Syntax Symbols

variable {cursor : Cursor} {name : String}

/-- What a name stands for is assigned before the cursor, and no visible assignment to
the name starts later. -/
theorem StandsFor.before_and_latest {assigned : Local} {index : Nat}
    (hassigned : cursor.StandsFor name assigned index) :
    assigned.region.stop < cursor.position ∧
      ∀ other ∈ cursor.locals, other.name = name →
        other.region.start ≤ assigned.region.start := by
  constructor
  · have hvisible := hassigned.visible
    rw [Local.visibleFrom, Bool.and_eq_true, decide_eq_true_eq] at hvisible
    exact hvisible.2
  · intro other hother hname
    obtain ⟨hmem, hvisible⟩ := List.mem_filter.mp hother
    obtain ⟨earlier, hearlier⟩ := List.mem_iff_getElem?.mp hmem
    rw [Position.le_iff_lt_or_eq]
    exact (hassigned.latest other earlier hearlier hname hvisible).imp_right And.left

theorem StandsFor.mem_locals {assigned : Local} {index : Nat}
    (hassigned : cursor.StandsFor name assigned index) : assigned ∈ cursor.locals :=
  List.mem_filter.mpr ⟨List.mem_of_getElem? hassigned.listed, hassigned.visible⟩

/-- A step leads to the name that is followed next. The variable of that name is the latest one
that is assigned before the cursor. If the name is not assigned again from the start of the
first assignment on, it was assigned before that one, or that one is a part of its own
assignment. -/
theorem binding_of_step (hsymbols : cursor.buffer.symbols =
    .ofTree cursor.buffer.index cursor.buffer.tree) {step : TrailStep}
    (hstep : step ∈ (cursor.trail name).steps) :
    ∃ first index, cursor.StandsFor step.name first index ∧ first.signature = some step.target ∧
      (∀ next, [step, next] <:+: (cursor.trail name).steps → next.name = step.target ∧
        ∃ second later, cursor.StandsFor step.target second later ∧
          second.signature = some next.target) ∧
      ∀ second later, cursor.StandsFor step.target second later →
        second.region.stop < cursor.position ∧
        (∀ other ∈ cursor.locals, other.name = step.target →
          other.region.start ≤ second.region.start) ∧
        ((∀ node ∈ cursor.buffer.tree.preorder, node.Ordered) →
          (∀ other ∈ cursor.locals, other.name = step.target →
            other.region.start < first.region.start) →
          second.region.stop ≤ first.region.start ∨ second.region.Covers first.region) := by
  have hpath := cursor.path_trail name
  obtain ⟨first, index, hfirst, htarget⟩ := hpath.leads_of_mem hstep
  refine ⟨first, index, hfirst, htarget, ?_, ?_⟩
  · intro next hfollowed
    have hname := hpath.name_eq_target hfollowed
    have hnext := hpath.leads_of_mem (hfollowed.subset (by simp : next ∈ [step, next]))
    rw [hname] at hnext
    exact ⟨hname, hnext⟩
  intro second later hsecond
  obtain ⟨hbefore, hlatest⟩ := hsecond.before_and_latest
  refine ⟨hbefore, hlatest, ?_⟩
  intro hordered hnone
  have hearlier := hnone second hsecond.mem_locals hsecond.named
  have hmem := List.mem_of_getElem? hfirst.listed
  have hmemSecond := List.mem_of_getElem? hsecond.listed
  rw [hsymbols, cursor.buffer.index_eq] at hmem hmemSecond
  exact stop_le_or_covers_of_start_lt hordered hmemSecond hmem hearlier

/-- A program whose third line assigns `x` again after `y` was assigned from it. -/
def reassignedTree : Tree :=
  .node ⟨"program", true, ⟨0, 24⟩, none⟩
    [.node ⟨"assignment", true, ⟨0, 5⟩, none⟩
      [.node ⟨"identifier", true, ⟨0, 1⟩, some "left"⟩ [], .node ⟨"=", false, ⟨2, 3⟩, none⟩ [],
        .node ⟨"integer", true, ⟨4, 5⟩, some "right"⟩ []],
    .node ⟨"assignment", true, ⟨6, 11⟩, none⟩
      [.node ⟨"identifier", true, ⟨6, 7⟩, some "left"⟩ [], .node ⟨"=", false, ⟨8, 9⟩, none⟩ [],
        .node ⟨"identifier", true, ⟨10, 11⟩, some "right"⟩ []],
    .node ⟨"assignment", true, ⟨12, 19⟩, none⟩
      [.node ⟨"identifier", true, ⟨12, 13⟩, some "left"⟩ [],
        .node ⟨"=", false, ⟨14, 15⟩, none⟩ [],
        .node ⟨"float", true, ⟨16, 19⟩, some "right"⟩ []],
    .node ⟨"call", true, ⟨20, 24⟩, none⟩
      [.node ⟨"identifier", true, ⟨20, 21⟩, some "receiver"⟩ [],
        .node ⟨".", false, ⟨21, 22⟩, some "operator"⟩ [],
        .node ⟨"identifier", true, ⟨22, 24⟩, some "method"⟩ []]]

/-- The cursor at the end of that program. -/
def reassigned : Cursor where
  buffer := .ofParsed "x = 1\ny = x\nx = 2.5\ny.fo" ⟨reassignedTree, false⟩
  offset := 24
  offset_le := by decide +kernel

theorem steps_reassigned :
    (reassigned.trail "y").steps = [⟨"y", "x"⟩, ⟨"x", "Float.new"⟩] := by
  decide +kernel

theorem binding_of_step_reassigned :
    reassigned.buffer.symbols = .ofTree reassigned.buffer.index reassigned.buffer.tree ∧
      ⟨"y", "x"⟩ ∈ (reassigned.trail "y").steps ∧
      [⟨"y", "x"⟩, ⟨"x", "Float.new"⟩] <:+: (reassigned.trail "y").steps ∧
      ∃ first index, reassigned.StandsFor "y" first index ∧ first.signature = some "x" ∧
        (∀ next, [⟨"y", "x"⟩, next] <:+: (reassigned.trail "y").steps → next.name = "x" ∧
          ∃ second later, reassigned.StandsFor "x" second later ∧
            second.signature = some next.target) ∧
        ∀ second later, reassigned.StandsFor "x" second later →
          second.region.stop < reassigned.position ∧
          (∀ other ∈ reassigned.locals, other.name = "x" →
            other.region.start ≤ second.region.start) ∧
          ((∀ node ∈ reassigned.buffer.tree.preorder, node.Ordered) →
            (∀ other ∈ reassigned.locals, other.name = "x" →
              other.region.start < first.region.start) →
            second.region.stop ≤ first.region.start ∨ second.region.Covers first.region) := by
  have hstep : ⟨"y", "x"⟩ ∈ (reassigned.trail "y").steps := by simp [steps_reassigned]
  have hfollowed : [⟨"y", "x"⟩, ⟨"x", "Float.new"⟩] <:+: (reassigned.trail "y").steps := by
    simp only [steps_reassigned, List.infix_refl]
  exact ⟨rfl, hstep, hfollowed, binding_of_step rfl hstep⟩

/-- The variable that a step leads to need not be assigned before the first one. The trail
of `y` goes on to the value that `x` was given last. -/
theorem not_forall_assigned_before :
    ¬ ∀ (cursor : Cursor) (name : String),
      cursor.buffer.symbols = .ofTree cursor.buffer.index cursor.buffer.tree →
      ∀ step next, [step, next] <:+: (cursor.trail name).steps →
      ∀ first index, cursor.StandsFor step.name first index →
      ∀ second later, cursor.StandsFor next.name second later →
        second.region.stop ≤ first.region.start := by
  intro hall
  have hsteps : [⟨"y", "x"⟩, ⟨"x", "Float.new"⟩] <:+: (reassigned.trail "y").steps := by
    simp only [steps_reassigned, List.infix_refl]
  have hfirst : reassigned.StandsFor "y"
      ⟨"y", some "x", ⟨⟨0, 24⟩, ⟨0, 24⟩⟩, ⟨⟨1, 0⟩, ⟨1, 5⟩⟩⟩ 1 :=
    latest_eq_some_iff.mp (by decide +kernel)
  have hsecond : reassigned.StandsFor "x"
      ⟨"x", some "Float.new", ⟨⟨0, 24⟩, ⟨0, 24⟩⟩, ⟨⟨2, 0⟩, ⟨2, 7⟩⟩⟩ 2 :=
    latest_eq_some_iff.mp (by decide +kernel)
  have hbefore := hall reassigned "y" rfl _ _ hsteps _ _ hfirst _ _ hsecond
  contradiction

end Caret.Cursor
