import Caret.Chain.Word
import Caret.Proofs.Chain.Blanking
import Caret.Proofs.Chain.Composition

/-! # Scans within an identifier

Between the first character of an identifier and its last one a scan does nothing but copy.
Wherever in the identifier it starts, it comes to the same walk with more or less of the
identifier gathered.
-/

namespace Caret.Chain

open Text

theorem Walk.copyAll_append (walk : Walk) (index : Nat) (first second : List Char) :
    walk.copyAll index (first ++ second) =
      (walk.copyAll (index + first.length) second).copyAll index first := by
  induction first generalizing index with
  | nil => rfl
  | cons c rest ih =>
      rw [List.cons_append, copyAll, copyAll, ih, List.length_cons, Nat.add_right_comm,
        Nat.add_assoc]

/-- Copying at the start of a walk is to gather the copied text right of it. -/
theorem Walk.exists_copyAll_start (index : Nat) (text : List Char) :
    ∃ anchor, (Walk.start false).copyAll index text = (Walk.start false).withTail text anchor := by
  cases text with
  | nil => exact ⟨none, rfl⟩
  | cons c rest => exact ⟨some index, by simp [copyAll, copy, withTail, start]⟩

namespace Code

/-- A stretch of characters of a name that no comment meets. -/
structure IsRun (code : Code) (run : Span) : Prop where
  word : ∀ index, run.contains index → code.chars[index]?.any isWordChar
  apart : ∀ comment ∈ code.comments, ∀ index, run.contains index → ¬ comment.contains index

instance (code : Code) (run : Span) : Decidable (code.IsRun run) :=
  decidable_of_iff (∀ index < run.stop, run.start ≤ index →
      code.chars[index]?.any isWordChar ∧ ∀ comment ∈ code.comments, ¬ comment.contains index) <| by
    constructor
    · intro h
      refine ⟨fun index hholds => ?_, fun comment hmem index hholds => ?_⟩
      · obtain ⟨hfrom, hto⟩ := Span.contains_iff.mp hholds
        exact (h index hto hfrom).1
      · obtain ⟨hfrom, hto⟩ := Span.contains_iff.mp hholds
        exact (h index hto hfrom).2 comment hmem
    · intro h index hto hfrom
      have hholds := Span.contains_iff.mpr ⟨hfrom, hto⟩
      exact ⟨h.word index hholds, fun comment hmem => h.apart comment hmem index hholds⟩

variable {code : Code} {run : Span} {walk : Walk} {index offset : Nat} {c : Char}

namespace IsRun

variable (hrun : code.IsRun run)
include hrun

theorem exists_char (hfrom : run.start ≤ index) (hto : index < run.stop) :
    ∃ c, code.chars[index]? = some c ∧ isWordChar c := by
  have hword := hrun.word index (Span.contains_iff.mpr ⟨hfrom, hto⟩)
  cases hc : code.chars[index]? with
  | none =>
      rw [hc] at hword
      contradiction
  | some c =>
      rw [hc] at hword
      exact ⟨c, rfl, hword⟩

theorem of_within {inner : Span} (hstart : run.start ≤ inner.start)
    (hstop : inner.stop ≤ run.stop) : code.IsRun inner := by
  have hwithin : ∀ index, inner.contains index → run.contains index := by
    intro index hholds
    obtain ⟨hfrom, hto⟩ := Span.contains_iff.mp hholds
    exact Span.contains_iff.mpr ⟨Nat.le_trans hstart hfrom, Nat.lt_of_lt_of_le hto hstop⟩
  exact ⟨fun index hholds => hrun.word index (hwithin index hholds),
    fun comment hmem index hholds => hrun.apart comment hmem index (hwithin index hholds)⟩

theorem isWordChar_of_mem (hmem : c ∈ code.between run) : isWordChar c := by
  obtain ⟨index, hfrom, hto, hc⟩ := mem_between.mp hmem
  obtain ⟨d, hd, hword⟩ := hrun.exists_char hfrom hto
  rwa [Option.some.inj (hc.symm.trans hd)]

theorem not_commented (hfrom : run.start ≤ index) (hto : index < run.stop) :
    code.commented index = false :=
  not_commented_iff.mpr fun comment hmem =>
    hrun.apart comment hmem index (Span.contains_iff.mpr ⟨hfrom, hto⟩)

theorem commentHolding_eq_none (hfrom : run.start ≤ index) (hto : index < run.stop) :
    code.commentHolding index = none :=
  Code.commentHolding_eq_none (hrun.not_commented hfrom hto)

theorem le_size (hfrom : run.start < offset) (hto : offset ≤ run.stop) :
    offset ≤ code.chars.size := by
  obtain ⟨last, rfl⟩ := Nat.exists_eq_succ_of_ne_zero (Nat.ne_zero_of_lt hfrom)
  obtain ⟨c, hc, -⟩ := hrun.exists_char (Nat.le_of_lt_succ hfrom) hto
  exact (Array.getElem?_eq_some_iff.mp hc).1

end IsRun

/-- A character of a name is copied, unless a percent sign stands before it. -/
theorem stepBack_word (hchar : isWordChar c) (hzero : walk.depth.isZero)
    (hafter : walk.afterBlank = false) :
    code.stepBack index c walk =
      .next (if code.hasBefore index 1 '%' then walk else walk.copy index c) := by
  obtain ⟨hblank, hboundary, hsignature, hopener, hdollar, hat⟩ := classes_of_copied (.inl hchar)
  have hplain : walk.depth.track c = walk.depth := Depth.track_plain (isPlain_of_copied (.inl hchar))
  have hpast : walk.past c = walk := by rw [Walk.past, hplain, ← hafter]
  rw [stepBack, if_neg (by simp [hblank]), if_neg (by simp [hafter]),
    crossChar_outside (by rwa [hplain]) hboundary (.inl hopener), hpast]
  cases hpercent : code.hasBefore index 1 '%' <;>
    simp [takeChar, hsignature, hpercent, hdollar, hat]

/-- Right of the first character of a run a walk copies all that it meets. -/
theorem walkBack_run (hrun : code.IsRun run) (hfrom : run.start < offset) (hto : offset ≤ run.stop)
    (hzero : walk.depth.isZero) (hafter : walk.afterBlank = false) :
    code.walkBack walk offset =
      code.walkBack (walk.copyAll (run.start + 1) (code.between ⟨run.start + 1, offset⟩))
        (run.start + 1) := by
  induction hfrom generalizing walk with
  | refl => simp [between, Walk.copyAll]
  | @step last hle ih =>
      obtain ⟨before, rfl⟩ := Nat.exists_eq_succ_of_ne_zero (Nat.ne_zero_of_lt hle)
      have hwithin : run.start ≤ before := Nat.le_of_lt_succ hle
      obtain ⟨c, hc, hchar⟩ := hrun.exists_char (Nat.le_succ_of_le hwithin) hto
      obtain ⟨d, hd, hword⟩ := hrun.exists_char hwithin (Nat.lt_of_succ_lt hto)
      -- The character before this one belongs to the run, so it is no percent sign.
      have hpercent : code.hasBefore (before + 1) 1 '%' = false := by
        have hne : d ≠ '%' := by
          rintro rfl
          contradiction
        simp [hasBefore, hd, hne]
      have hnone := hrun.commentHolding_eq_none (Nat.le_succ_of_le hwithin) hto
      have hlength : (code.between ⟨run.start + 1, before + 1⟩).length =
          before + 1 - (run.start + 1) :=
        length_between (hrun.le_size hle (Nat.le_of_succ_le hto))
      have hrest := @ih (walk.copy (before + 1) c) (Nat.le_of_succ_le hto) hzero hafter
      rw [walkBack_step hc hnone, stepBack_word hchar hzero hafter, hpercent,
        between_succ hle hc, Walk.copyAll_append, hlength, Nat.add_sub_cancel' hle]
      exact hrest

/-- What is found to the left from behind the first character of a run. -/
def runScan (code : Code) (run : Span) : Signature :=
  code.walkBack (.start false) (run.start + 1)

/-- A walk does not end right of a character that is neither blank nor in a comment, if it
starts on its left. -/
theorem walkBack_start_le {last cursor : Nat} (hlast : code.chars[last]?.any (!isBlank ·))
    (hapart : ∀ comment ∈ code.comments, ¬ comment.contains last) (hcursor : cursor ≤ last) :
    (code.walkBack walk cursor).start ≤ last := by
  refine walkBack_induction (fun _ cursor => cursor ≤ last) (·.start ≤ last) ?_ ?_ ?_ ?_ hcursor
  · intro walk index comment hle hfound hstart
    omega
  · intro walk index c next hle hc hnone hstep
    omega
  · intro walk index c ended start hle hc hnone hstep
    show start ≤ last
    cases hstep with
    | «break» => exact skipBlanks_le_of_apart hle hlast hapart
    | leave => exact hle
    | boundary => exact hle
    | percent => omega
    | sigil => omega
    | doubled => omega
  · intro walk cursor hle
    exact Nat.zero_le _

/-- The first character of a run is copied, or a percent sign stands before it. -/
theorem runScan_eq (hrun : code.IsRun run) (hfrom : run.start < run.stop)
    (hc : code.chars[run.start]? = some c) : code.runScan run =
      code.walkBack (if code.hasBefore run.start 1 '%' then .start false
        else (Walk.start false).copy run.start c) run.start := by
  obtain ⟨d, hd, hchar⟩ := hrun.exists_char (Nat.le_refl _) hfrom
  obtain rfl : c = d := Option.some.inj (hc.symm.trans hd)
  rw [runScan, walkBack_step hc (hrun.commentHolding_eq_none (Nat.le_refl _) hfrom),
    stepBack_word hchar rfl rfl]

theorem runScan_start_le (hrun : code.IsRun run) (hfrom : run.start < run.stop) :
    (code.runScan run).start ≤ run.start := by
  obtain ⟨c, hc, hchar⟩ := hrun.exists_char (Nat.le_refl _) hfrom
  have hblank := (classes_of_copied (.inl hchar)).1
  rw [runScan_eq hrun hfrom hc]
  refine walkBack_start_le (by simp [hc, hblank]) ?_ (Nat.le_refl _)
  exact not_commented_iff.mp (hrun.not_commented (Nat.le_refl _) hfrom)

/-- What is gathered from behind the first character of a run is nothing at all, or has
some copied character. -/
theorem runScan_copied (hlines : code.LineComments) (hrun : code.IsRun run)
    (hfrom : run.start < run.stop) :
    (code.runScan run).chars = [] ∨ (code.runScan run).anchor.isSome := by
  obtain ⟨c, hc, hchar⟩ := hrun.exists_char (Nat.le_refl _) hfrom
  rw [runScan_eq hrun hfrom hc]
  cases hpercent : code.hasBefore run.start 1 '%' with
  | false =>
      have hcopy : (Walk.start false).copy run.start c =
          (Walk.start false).withTail [c] (some run.start) := rfl
      right
      simp [hcopy, walkBack_withTail, Signature.withTail]
  | true =>
      -- The percent sign stands in the line of the run, so no comment hides it.
      simp only [hasBefore, Bool.and_eq_true, decide_eq_true_eq] at hpercent
      obtain ⟨before, hbefore⟩ := Nat.exists_eq_succ_of_ne_zero (Nat.ne_of_gt hpercent.1)
      have hsign : code.chars[before]? = some '%' := by simpa [hbefore] using hpercent.2
      have hnone : code.commentHolding before = none := by
        have hcode := hrun.not_commented (Nat.le_refl _) hfrom
        rw [hbefore] at hc hcode
        refine Code.commentHolding_eq_none (not_commented_before hlines hc ?_ hcode)
        rintro rfl
        contradiction
      have hstop : code.stepBack before '%' (.start false) = .stop (.start false) (before + 1) := by
        rw [stepBack, if_neg (by simp [isBlank]), if_neg (by simp [Walk.start]),
          crossChar_boundary rfl rfl]
        rfl
      left
      rw [if_pos rfl, hbefore, walkBack_step hsign hnone, hstop]
      rfl

/-- The scan from a place within a run gathers what is gathered from behind its first
character, and the characters between the two places. -/
theorem scan_run (hrun : code.IsRun run) (hfrom : run.start < offset) (hto : offset ≤ run.stop) :
    ∃ anchor, code.scan offset .normal =
      (code.runScan run).withTail (code.between ⟨run.start + 1, offset⟩) anchor := by
  have hstart := runScan_start_le hrun (Nat.lt_of_lt_of_le hfrom hto)
  obtain ⟨anchor, hcopied⟩ :=
    Walk.exists_copyAll_start (run.start + 1) (code.between ⟨run.start + 1, offset⟩)
  have hwalk : code.walkBack (.start false) offset =
      (code.runScan run).withTail (code.between ⟨run.start + 1, offset⟩) anchor := by
    rw [walkBack_run hrun hfrom hto rfl rfl, hcopied, walkBack_withTail, runScan]
  refine ⟨anchor, ?_⟩
  simp only [scan, Nat.min_eq_left (hrun.le_size hfrom hto), hwalk, Signature.withTail]
  rw [Nat.min_eq_left (Nat.le_trans hstart (Nat.le_of_lt hfrom))]

end Code

section Word

/-- The cursor before the mark that a word ends in, if it ends in one. -/
def beforeMark (chars : Array Char) (cursor : Nat) : Nat :=
  if cursor ≠ 0 ∧ chars[cursor - 1]?.any isMethodMark then cursor - 1 else cursor

/-- The start of the sigil before a name, or of the name if there is none. -/
def sigilStart (chars : Array Char) (name : Nat) : Nat :=
  match name with
  | 0 => 0
  | sigil + 1 =>
      let before := if sigil = 0 then none else chars[sigil - 1]?
      match chars[sigil]? with
      | some '@' => if before = some '@' then sigil - 1 else sigil
      | some '$' => sigil
      | some ':' => if before = some ':' then name else sigil
      | _ => name

theorem wordStart_eq (chars : Array Char) (offset : Nat) :
    wordStart chars offset =
      sigilStart chars (runStart isWordChar chars (beforeMark chars (min offset chars.size))) :=
  rfl

theorem sigilStart_le (chars : Array Char) (name : Nat) : sigilStart chars name ≤ name := by
  cases name with
  | zero => exact Nat.le_refl _
  | succ sigil =>
      unfold sigilStart
      dsimp only
      generalize (if sigil = 0 then none else chars[sigil - 1]?) = before
      split
      next => split <;> omega
      next => omega
      next => split <;> omega
      next => omega

theorem beforeMark_le (chars : Array Char) (cursor : Nat) : beforeMark chars cursor ≤ cursor := by
  unfold beforeMark
  split <;> omega

theorem nameStart_le (chars : Array Char) (offset : Nat) :
    runStart isWordChar chars (beforeMark chars (min offset chars.size)) ≤ offset := by
  have hmarked := Nat.le_trans (beforeMark_le chars _) (Nat.min_le_left offset chars.size)
  exact Nat.le_trans (runStart_le _ _ _) hmarked

theorem wordStart_le (chars : Array Char) (offset : Nat) : wordStart chars offset ≤ offset := by
  rw [wordStart_eq]
  exact Nat.le_trans (sigilStart_le _ _) (nameStart_le chars offset)

theorem not_isMethodMark_of_isWordChar {c : Char} (hchar : isWordChar c) :
    isMethodMark c = false := by
  cases hmark : isMethodMark c with
  | false => rfl
  | true =>
      simp only [isMethodMark, Bool.or_eq_true, decide_eq_true_eq] at hmark
      rcases hmark with rfl | rfl <;> contradiction

variable {code : Code} {run : Span} {offset : Nat}

/-- The word that a run belongs to, with its sigil and its mark. -/
def Code.wordAround (code : Code) (run : Span) : Span :=
  ⟨sigilStart code.chars (runStart isWordChar code.chars run.start),
    runEnd isWordTail code.chars run.stop⟩

theorem wordStart_run (hrun : code.IsRun run) (hfrom : run.start < offset)
    (hto : offset ≤ run.stop) : wordStart code.chars offset = (code.wordAround run).start := by
  obtain ⟨last, rfl⟩ := Nat.exists_eq_succ_of_ne_zero (Nat.ne_zero_of_lt hfrom)
  obtain ⟨c, hc, hchar⟩ := hrun.exists_char (Nat.le_of_lt_succ hfrom) hto
  have hmark := not_isMethodMark_of_isWordChar hchar
  have hmarked : beforeMark code.chars (last + 1) = last + 1 := by
    rw [beforeMark, if_neg (by simp [hc, hmark])]
  have hname : runStart isWordChar code.chars (last + 1) =
      runStart isWordChar code.chars run.start := by
    refine runStart_eq_of_forall (Nat.le_of_lt hfrom) fun index hstart hstop => ?_
    obtain ⟨d, hd, hword⟩ := hrun.exists_char hstart (Nat.lt_of_lt_of_le hstop hto)
    simp [hd, hword]
  rw [wordStart_eq, Nat.min_eq_left (hrun.le_size hfrom hto), hmarked, hname, Code.wordAround]

theorem wordEnd_run (hrun : code.IsRun run) (hfrom : run.start < offset)
    (hto : offset ≤ run.stop) : wordEnd code.chars offset = (code.wordAround run).stop := by
  refine runEnd_eq_of_forall hto fun index hstart hstop => ?_
  obtain ⟨c, hc, hchar⟩ := hrun.exists_char (Nat.le_trans (Nat.le_of_lt hfrom) hstart) hstop
  simp [hc, isWordTail, hchar]

end Word

end Caret.Chain
