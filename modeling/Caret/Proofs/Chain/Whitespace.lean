import Caret.Proofs.Chain.Blanking
import Caret.Proofs.Chain.Steps

/-! # Comments as white space

A scan over a text with comments goes the way of the scan over the text in which they are
blanked. It may only miss a subscript. Whether a square bracket belongs to a percent
literal is told by the character two places before it, and at the start of a line that is
the last character of the line above, also where a comment holds it.
-/

namespace Caret.Chain

open Text

/-- A walk on the far side of white space. -/
def Walk.acrossBlank (walk : Walk) : Walk :=
  { walk with afterBlank := walk.afterBlank || walk.depth.isZero }

/-- What holds of a walk between two steps. It has left no bracket that it did not start
in, and it remembers white space only outside all brackets. -/
structure Walk.Underway (walk : Walk) : Prop where
  not_left : walk.depth.leftBracket = false
  outside : walk.afterBlank → walk.depth.isZero

theorem Walk.underway_start : (Walk.start false).Underway where
  not_left := rfl
  outside h := by contradiction

theorem Walk.Underway.acrossBlank {walk : Walk} (hunderway : walk.Underway) :
    walk.acrossBlank.Underway where
  not_left := hunderway.not_left
  outside h := by
    rcases Bool.or_eq_true_iff.mp h with hafter | hzero
    · exact hunderway.outside hafter
    · exact hzero

theorem Crosses.underway {code : Code} {index : Nat} {c : Char} {walk next : Walk}
    (hstep : Crosses code index c walk (.next next)) : next.Underway := by
  have houtside : ∀ {depth : Depth}, depth.isZero → depth.leftBracket = false :=
    Depth.leftBracket_of_isZero
  cases hstep with
  | blank hzero => exact ⟨houtside hzero, fun _ => hzero⟩
  | inside hleft => exact ⟨hleft, fun h => by contradiction⟩
  | subscript hc hzero => exact ⟨houtside hzero, fun h => by contradiction⟩
  | skip hzero => exact ⟨houtside hzero, fun h => by contradiction⟩
  | copy hzero => exact ⟨houtside hzero, fun h => by contradiction⟩

namespace Code

/-- Whether the character at an offset is a percent sign at the end of a comment, above a
line that begins with a square bracket. -/
structure HidesSubscript (code : Code) (index : Nat) : Prop where
  percent : code.chars[index]? = some '%'
  comment : code.commented index
  line : code.chars[index + 1]? = some '\n'
  opener : code.chars[index + 2]? = some '['

instance (code : Code) (index : Nat) : Decidable (code.HidesSubscript index) :=
  decidable_of_iff (code.chars[index]? = some '%' ∧ code.commented index ∧
      code.chars[index + 1]? = some '\n' ∧ code.chars[index + 2]? = some '[')
    ⟨fun h => ⟨h.1, h.2.1, h.2.2.1, h.2.2.2⟩, fun h => ⟨h.1, h.2, h.3, h.4⟩⟩

/-- The same characters, except that subscripts that comments hide are missing on the
left. -/
inductive Misses (code : Code) : List Char → List Char → Prop
  | nil : Misses code [] []
  | copied (c : Char) {chars blank : List Char} (hrest : Misses code chars blank) :
      Misses code (c :: chars) (c :: blank)
  | subscript {index : Nat} (hhides : code.HidesSubscript index) {chars blank : List Char}
      (hrest : Misses code chars blank) : Misses code chars ('.' :: '[' :: ']' :: blank)

theorem Misses.eq_of_not_hidden {code : Code} (hnone : ∀ index, ¬ code.HidesSubscript index)
    {chars blank : List Char} (hmisses : code.Misses chars blank) : chars = blank := by
  induction hmisses with
  | nil => rfl
  | copied c hrest ih => rw [ih]
  | subscript hhides hrest ih => exact absurd hhides (hnone _)

section Sight

variable {code : Code} {index : Nat} {c : Char}

/-- Within a line the character before another one is the same where the comments are
blanked. -/
theorem hasBefore_one_blanked (hlines : code.LineComments) (hc : code.chars[index]? = some c)
    (hline : c ≠ '\n') (hcode : code.commented index = false) (d : Char) :
    code.blanked.hasBefore index 1 d = code.hasBefore index 1 d := by
  cases index with
  | zero => rfl
  | succ before =>
      have hbefore := not_commented_before hlines hc hline hcode
      exact congrArg (fun other => decide (1 ≤ before + 1) && decide (other = some d))
        (getElem?_blankedChars hbefore)

/-- Two places before a square bracket there is the same character where the comments are
blanked, unless a comment hides a subscript there. -/
theorem hasBefore_two_blanked (hordered : code.OrderedComments) (hlines : code.LineComments)
    (hc : code.chars[index]? = some '[') (hcode : code.commented index = false) :
    code.blanked.hasBefore index 2 '%' = code.hasBefore index 2 '%' ∨
      code.blanked.hasBefore index 2 '%' = false ∧ code.HidesSubscript (index - 2) := by
  rcases Nat.lt_or_ge index 2 with hlt | hge
  · left
    simp [hasBefore, Nat.not_le_of_lt hlt]
  · obtain ⟨before, rfl⟩ := Nat.exists_eq_add_of_le' hge
    rw [Nat.add_sub_cancel]
    cases hcommented : code.commented before with
    | false =>
        left
        exact congrArg (fun other => decide (2 ≤ before + 2) && decide (other = some '%'))
          (getElem?_blankedChars hcommented)
    | true =>
        have hblank := getElem?_blankedChars_of_commented (hordered.lt_size hcommented) hcommented
        have hsees : code.blanked.hasBefore (before + 2) 2 '%' = false := by
          simp [hasBefore, blanked, hblank]
        by_cases hpercent : code.chars[before]? = some '%'
        · right
          refine ⟨hsees, hpercent, hcommented, ?_, hc⟩
          -- The comment ends between the percent sign and the bracket.
          obtain ⟨comment, hmem, hholds⟩ := commented_iff.mp hcommented
          have hapart := not_commented_iff.mp hcode comment hmem
          have hstop := stop_ne_of_within_line hlines hmem hc (by decide)
          rw [Span.contains_iff] at hholds hapart
          obtain hbetween : comment.stop = before + 1 := by omega
          rcases hlines comment hmem with hend | hfeed
          · have hsize := (Array.getElem?_eq_some_iff.mp hc).1
            omega
          · rwa [hbetween] at hfeed
        · left
          rw [hsees]
          simp [hasBefore, hpercent]

end Sight

end Code

section Agreement

variable {code : Code}

/-- A walk and a walk where the comments are blanked, in the same state. -/
structure Walk.Agrees (code : Code) (walk blank : Walk) : Prop where
  anchor : walk.anchor = blank.anchor
  chars : code.Misses walk.chars blank.chars
  depth : walk.depth = blank.depth
  afterBlank : walk.afterBlank = blank.afterBlank

/-- A signature and the one where the comments are blanked, up to hidden subscripts. -/
structure Signature.Agrees (code : Code) (signature blank : Signature) : Prop where
  anchor : signature.anchor = blank.anchor
  chars : code.Misses signature.chars blank.chars
  start : signature.start = blank.start

inductive Step.Agrees (code : Code) : Step → Step → Prop
  | next {walk blank : Walk} (hagrees : walk.Agrees code blank) :
      Step.Agrees code (.next walk) (.next blank)
  | stop {walk blank : Walk} (hagrees : walk.Agrees code blank) (start : Nat) :
      Step.Agrees code (.stop walk start) (.stop blank start)

theorem Step.Agrees.exists_next {walk : Walk} {step : Step}
    (hagrees : Step.Agrees code (.next walk) step) :
    ∃ blank, step = .next blank ∧ walk.Agrees code blank := by
  cases hagrees with
  | next hwalk => exact ⟨_, rfl, hwalk⟩

theorem Step.Agrees.exists_stop {walk : Walk} {start : Nat} {step : Step}
    (hagrees : Step.Agrees code (.stop walk start) step) :
    ∃ blank, step = .stop blank start ∧ walk.Agrees code blank := by
  cases hagrees with
  | stop hwalk => exact ⟨_, rfl, hwalk⟩

namespace Walk.Agrees

variable {walk blank : Walk}

theorem finish (hagrees : walk.Agrees code blank) (start : Nat) :
    (walk.finish start).Agrees code (blank.finish start) :=
  ⟨hagrees.anchor, hagrees.chars, rfl⟩

theorem copy (hagrees : walk.Agrees code blank) (index : Nat) (c : Char) :
    (walk.copy index c).Agrees code (blank.copy index c) :=
  ⟨rfl, hagrees.chars.copied c, hagrees.depth, hagrees.afterBlank⟩

theorem past (hagrees : walk.Agrees code blank) (c : Char) :
    (walk.past c).Agrees code (blank.past c) :=
  ⟨hagrees.anchor, hagrees.chars, congrArg (·.track c) hagrees.depth, rfl⟩

theorem acrossBlank (hagrees : walk.Agrees code blank) :
    walk.acrossBlank.Agrees code blank.acrossBlank where
  anchor := hagrees.anchor
  chars := hagrees.chars
  depth := hagrees.depth
  afterBlank := by rw [Walk.acrossBlank, Walk.acrossBlank, hagrees.depth, hagrees.afterBlank]

end Walk.Agrees

namespace Code

variable {index : Nat} {c : Char} {walk blank : Walk}

theorem takeChar_agrees (hagrees : walk.Agrees code blank)
    (hbefore : ∀ d, code.blanked.hasBefore index 1 d = code.hasBefore index 1 d) :
    Step.Agrees code (code.takeChar index c walk) (code.blanked.takeChar index c blank) := by
  unfold takeChar
  rw [hbefore, hbefore]
  have htaken : ∀ copied : Bool, Walk.Agrees code
      (if copied then walk.copy index c else walk)
      (if copied then blank.copy index c else blank) := by
    intro copied
    cases copied with
    | true => exact hagrees.copy index c
    | false => exact hagrees
  dsimp only
  split
  next => exact .stop (htaken _) _
  next =>
    split
    next =>
      split
      next => exact .stop ((htaken _).copy _ _) _
      next => exact .stop (htaken _) _
    next => exact .next (htaken _)

/-- A subscript is marked where the comments are blanked. If it is not marked otherwise, then
a comment hides it. -/
theorem subscript_misses (hordered : code.OrderedComments) (hlines : code.LineComments)
    (hc : code.chars[index]? = some c) (hcode : code.commented index = false)
    {chars other : List Char} (hmisses : code.Misses chars other) (outside : Bool) :
    code.Misses
      (if c = '[' && outside && !code.hasBefore index 2 '%' then '.' :: '[' :: ']' :: chars
        else chars)
      (if c = '[' && outside && !code.blanked.hasBefore index 2 '%' then
        '.' :: '[' :: ']' :: other else other) := by
  by_cases hsubscript : c = '[' ∧ outside
  · obtain ⟨rfl, rfl⟩ := hsubscript
    have hmarked := ((hmisses.copied ']').copied '[').copied '.'
    rcases hasBefore_two_blanked hordered hlines hc hcode with hsame | ⟨hsees, hhides⟩
    · rw [hsame]
      cases code.hasBefore index 2 '%' with
      | true => simpa using hmisses
      | false => simpa using hmarked
    · rw [hsees]
      cases code.hasBefore index 2 '%' with
      | true => simpa using hmisses.subscript hhides
      | false => simpa using hmarked
  · have hnone : (c = '[' && outside) = false := by simpa using hsubscript
    simpa [hnone] using hmisses

theorem crossChar_agrees (hordered : code.OrderedComments) (hlines : code.LineComments)
    (hc : code.chars[index]? = some c) (hcode : code.commented index = false) (hline : c ≠ '\n')
    (hagrees : walk.Agrees code blank) :
    Step.Agrees code (code.crossChar index c walk) (code.blanked.crossChar index c blank) := by
  obtain ⟨hanchor, hchars, hdepth, hafter⟩ := hagrees
  have hmarked := subscript_misses hordered hlines hc hcode hchars (walk.depth.track c).isZero
  have hcrossed : ∀ {chars other : List Char}, code.Misses chars other →
      Walk.Agrees code ⟨walk.anchor, chars, walk.depth.track c, false⟩
        ⟨walk.anchor, other, walk.depth.track c, false⟩ :=
    fun hmisses => ⟨rfl, hmisses, rfl, rfl⟩
  unfold crossChar
  rw [← hdepth, ← hanchor]
  dsimp only
  split
  next => exact .stop (hcrossed hmarked) _
  next =>
    split
    next => exact .next (hcrossed hmarked)
    next =>
      split
      next => exact .stop (hcrossed hmarked) _
      next =>
        exact takeChar_agrees (hcrossed hmarked) (hasBefore_one_blanked hlines hc hline hcode)

theorem crossChar_blank (hblank : isBlank c) (hleft : walk.depth.leftBracket = false)
    (hinside : walk.depth.isZero = false) : code.crossChar index c walk = .next (walk.past c) := by
  have hdepth : walk.depth.track c = walk.depth := Depth.track_blank hblank _
  exact crossChar_inside (by rwa [hdepth]) (by rwa [hdepth])

/-- One step over a character of code agrees with the step where the comments are blanked. -/
theorem stepBack_agrees (hordered : code.OrderedComments) (hlines : code.LineComments)
    (hc : code.chars[index]? = some c) (hnone : code.commentHolding index = none)
    (hunderway : walk.Underway) (hagrees : walk.Agrees code blank) :
    Step.Agrees code (code.stepBack index c walk) (code.blanked.stepBack index c blank) := by
  have hcode := (commentHolding_eq_none_iff hordered.inOrder).mp hnone
  unfold stepBack
  rw [continuesChain_blanked hordered, skipBlanks_blanked hordered, ← hagrees.depth,
    ← hagrees.afterBlank]
  split
  next => exact .next ⟨hagrees.anchor, hagrees.chars, rfl, rfl⟩
  next hblank =>
    split
    next => exact .stop ⟨hagrees.anchor, hagrees.chars, hagrees.depth, hagrees.afterBlank⟩ _
    next =>
      by_cases hline : c = '\n'
      · -- A line feed inside brackets has no effect.
        subst hline
        have hinside : walk.depth.isZero = false := by simpa [isBlank] using hblank
        have hblankdepth := hagrees.depth ▸ hinside
        have hblankleft := hagrees.depth ▸ hunderway.not_left
        rw [crossChar_blank rfl hunderway.not_left hinside, crossChar_blank rfl hblankleft hblankdepth]
        exact .next (hagrees.past _)
      · exact crossChar_agrees hordered hlines hc hcode hline hagrees

theorem stepBack_space (hunderway : walk.Underway) :
    code.stepBack index ' ' walk = .next walk.acrossBlank := by
  cases hzero : walk.depth.isZero with
  | true => simp [stepBack, hzero, isBlank, Walk.acrossBlank]
  | false =>
      have hafter : walk.afterBlank = false := by
        cases hafter : walk.afterBlank with
        | false => rfl
        | true =>
            rw [hunderway.outside hafter] at hzero
            contradiction
      have hacross : walk.acrossBlank = walk.past ' ' := by
        simp [Walk.acrossBlank, Walk.past, Depth.track, hzero, hafter]
      rw [hacross, stepBack, if_neg (by simp [hzero]), if_neg (by simp [hzero])]
      exact crossChar_blank rfl hunderway.not_left hzero

/-- Where it is blanked a comment is crossed one space at a time, with the effect of a
single one. -/
theorem walkBack_blanked_comment (hordered : code.OrderedComments) {comment : Span}
    (hmem : comment ∈ code.comments) (hunderway : blank.Underway) (hstart : comment.start ≤ index)
    (hstop : index < comment.stop) :
    code.blanked.walkBack blank (index + 1) =
      code.blanked.walkBack blank.acrossBlank comment.start := by
  have hspace : ∀ place, comment.start ≤ place → place < comment.stop →
      code.blanked.chars[place]? = some ' ' := by
    intro place hfrom hto
    have hcommented : code.commented place :=
      commented_iff.mpr ⟨comment, hmem, Span.contains_iff.mpr ⟨hfrom, hto⟩⟩
    exact getElem?_blankedChars_of_commented (hordered.lt_size hcommented) hcommented
  induction hstart generalizing blank with
  | refl =>
      rw [walkBack_step (hspace _ (Nat.le_refl _) hstop) (commentHolding_blanked code _),
        stepBack_space hunderway]
  | @step place hle ih =>
      have hagain : blank.acrossBlank.acrossBlank = blank.acrossBlank := by
        simp [Walk.acrossBlank]
      rw [walkBack_step (hspace _ (Nat.le_succ_of_le hle) hstop) (commentHolding_blanked code _),
        stepBack_space hunderway]
      dsimp only
      rw [ih hunderway.acrossBlank (Nat.lt_of_succ_lt hstop), hagain]

/-- Where it is blanked a text outside comments is crossed one character after the other. -/
theorem walkBack_blanked_step (hordered : code.OrderedComments)
    (hc : code.chars[index]? = some c) (hnone : code.commentHolding index = none) :
    code.blanked.walkBack blank (index + 1) =
      match code.blanked.stepBack index c blank with
      | .next next => code.blanked.walkBack next index
      | .stop last start => last.finish start :=
  walkBack_step
    ((getElem?_blankedChars ((commentHolding_eq_none_iff hordered.inOrder).mp hnone)).trans hc)
    (commentHolding_blanked code index)

/-- A walk over a text agrees with the walk where the comments are blanked. -/
theorem walkBack_agrees (hordered : code.OrderedComments) (hlines : code.LineComments)
    {cursor : Nat} (hunderway : walk.Underway) (hagrees : walk.Agrees code blank) :
    (code.walkBack walk cursor).Agrees code (code.blanked.walkBack blank cursor) := by
  fun_induction code.walkBack walk cursor generalizing blank with
  | case1 walk =>
      rw [walkBack]
      exact hagrees.finish 0
  | case2 walk index hnone =>
      have hblank : code.blanked.chars[index]? = none := by
        simpa [blanked] using hnone
      rw [walkBack_none hblank]
      exact hagrees.finish 0
  | case3 walk index c hc comment hfound hlt ih =>
      obtain ⟨hstart, hstop⟩ := commentHolding_bounds hfound
      have hblank : blank.Underway :=
        ⟨hagrees.depth ▸ hunderway.not_left, by
          rw [← hagrees.depth, ← hagrees.afterBlank]
          exact hunderway.outside⟩
      rw [walkBack_blanked_comment hordered (mem_of_holding hfound) hblank hstart hstop]
      exact ih hunderway.acrossBlank hagrees.acrossBlank
  | case4 walk index c hc hnone next hstep ih =>
      have hsteps := stepBack_agrees hordered hlines hc hnone hunderway hagrees
      rw [hstep] at hsteps
      obtain ⟨blanknext, hother, hnext⟩ := hsteps.exists_next
      rw [walkBack_blanked_step hordered hc hnone, hother]
      exact ih (hstep ▸ stepBack_crosses).underway hnext
  | case5 walk index c hc hnone last start hstep =>
      have hsteps := stepBack_agrees hordered hlines hc hnone hunderway hagrees
      rw [hstep] at hsteps
      obtain ⟨blanklast, hother, hlast⟩ := hsteps.exists_stop
      rw [walkBack_blanked_step hordered hc hnone, hother]
      exact hlast.finish start

end Code

theorem Signature.Agrees.eq_of_not_hidden {signature blank : Signature}
    (hagrees : signature.Agrees code blank) (hnone : ∀ index, ¬ code.HidesSubscript index) :
    signature = blank := by
  obtain ⟨anchor, chars, start⟩ := signature
  obtain ⟨_, other, _⟩ := blank
  obtain ⟨rfl, hmisses, rfl⟩ := hagrees
  obtain rfl : chars = other := hmisses.eq_of_not_hidden hnone
  rfl

/-- A scan reads comments as white space, and finds the signature that it finds in the text in
which they are blanked. Only a subscript may be missing from it: the bracket begins a line,
and a percent sign ends a comment on the line above. -/
theorem Code.scan_agrees (hordered : code.OrderedComments) (hlines : code.LineComments)
    (offset : Nat) :
    (code.scan offset .normal).Agrees code (code.blanked.scan offset .normal) ∧
      ((∀ index, ¬ code.HidesSubscript index) →
        code.scan offset .normal = code.blanked.scan offset .normal) := by
  have hagrees : (code.scan offset .normal).Agrees code (code.blanked.scan offset .normal) := by
    have hsize : code.blanked.chars.size = code.chars.size := size_blankedChars code
    have hwalk := @walkBack_agrees code (.start false) (.start false) hordered hlines
      (min offset code.chars.size) Walk.underway_start ⟨rfl, .nil, rfl, rfl⟩
    refine ⟨?_, ?_, ?_⟩ <;> dsimp only [scan] <;> rw [hsize]
    · exact hwalk.anchor
    · exact hwalk.chars
    · rw [hwalk.start]
  exact ⟨hagrees, hagrees.eq_of_not_hidden⟩

/-- A chain over a comment with a percent sign and an open bracket in it. -/
def remarkedCode : Code :=
  ⟨"foo # [1(%\n.bar".toList.toArray, #[⟨4, 10⟩]⟩

theorem Code.scan_agrees_over_remark :
    remarkedCode.OrderedComments ∧ remarkedCode.LineComments ∧
      (∀ index, ¬ remarkedCode.HidesSubscript index) ∧
      (remarkedCode.scan 15 .normal).Agrees remarkedCode (remarkedCode.blanked.scan 15 .normal) ∧
      remarkedCode.scan 15 .normal = remarkedCode.blanked.scan 15 .normal := by
  have hordered : remarkedCode.OrderedComments := by decide +kernel
  have hlines : remarkedCode.LineComments := by decide +kernel
  have hnone : ∀ index, ¬ remarkedCode.HidesSubscript index := by
    have hall : ∀ index < 15, ¬ remarkedCode.HidesSubscript index := by decide +kernel
    intro index hhides
    exact hall index (Array.getElem?_eq_some_iff.mp hhides.percent).1 hhides
  obtain ⟨hagrees, hsame⟩ := Code.scan_agrees hordered hlines 15
  exact ⟨hordered, hlines, hnone, hagrees, hsame hnone⟩

/-- A subscript on its own line, below a comment that ends in a percent sign. -/
def percentCode : Code :=
  ⟨"# 100%\n[1].a".toList.toArray, #[⟨0, 6⟩]⟩

/-- Comments are not always read as white space: the percent sign at the end of one takes the
subscript below it from the signature. -/
theorem not_forall_scan_blanked :
    ¬ ∀ (code : Code) (offset : Nat), code.OrderedComments → code.LineComments →
      (∀ comment ∈ code.comments, ¬ (comment.start < offset ∧ offset ≤ comment.stop)) →
      code.scan offset .normal = code.blanked.scan offset .normal := by
  intro hall
  have hsame := hall percentCode 12 (by decide +kernel) (by decide +kernel) (by decide +kernel)
  have hdiffer : percentCode.scan 12 .normal ≠ percentCode.blanked.scan 12 .normal := by
    decide +kernel
  exact hdiffer hsame

end Agreement

end Caret.Chain
