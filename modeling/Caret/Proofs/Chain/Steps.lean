import Caret.Chain.Scan

/-! # What one character does to a walk

A step of a walk passes white space, ends at a break, changes the depth, or copies
a character. What holds at the start of a walk and is kept by each of these holds
when the walk ends.
-/

namespace Caret.Chain

open Text

/-- A walk on the far side of a significant character that is not copied. -/
def Walk.past (walk : Walk) (c : Char) : Walk :=
  { walk with depth := walk.depth.track c, afterBlank := false }

/-- All that a step over the character at an index can do. -/
inductive Crosses (code : Code) (index : Nat) (c : Char) (walk : Walk) : Step → Prop
  | blank (hzero : walk.depth.isZero) (hblank : isBlank c) :
      Crosses code index c walk (.next { walk with afterBlank := true })
  | break (hzero : walk.depth.isZero) (hafter : walk.afterBlank) (hdot : c ≠ '.')
      (hends : code.continuesChain (index + 1) = false) :
      Crosses code index c walk (.stop walk (code.skipBlanks (index + 1)))
  | leave (hleft : (walk.depth.track c).leftBracket) :
      Crosses code index c walk (.stop (walk.past c) (index + 1))
  | inside (hleft : (walk.depth.track c).leftBracket = false)
      (hzero : (walk.depth.track c).isZero = false) :
      Crosses code index c walk (.next (walk.past c))
  | subscript (hc : c = '[') (hzero : (walk.depth.track c).isZero)
      (hpercent : code.hasBefore index 2 '%' = false) :
      Crosses code index c walk
        (.next { walk.past c with chars := '.' :: '[' :: ']' :: walk.chars })
  | boundary (hzero : (walk.depth.track c).isZero) (hboundary : isBoundary c) :
      Crosses code index c walk (.stop (walk.past c) (index + 1))
  | skip (hzero : (walk.depth.track c).isZero) (hboundary : isBoundary c = false)
      (hskip : isSignatureChar c = false ∨ code.hasBefore index 1 '%') :
      Crosses code index c walk (.next (walk.past c))
  | copy (hzero : (walk.depth.track c).isZero) (hboundary : isBoundary c = false)
      (hchar : isSignatureChar c) (hsigil : c ≠ '$' ∧ c ≠ '@') :
      Crosses code index c walk (.next ((walk.past c).copy index c))
  | percent (hzero : (walk.depth.track c).isZero) (hsigil : c = '$' ∨ c = '@')
      (hpercent : code.hasBefore index 1 '%') :
      Crosses code index c walk (.stop (walk.past c) index)
  | sigil (hzero : (walk.depth.track c).isZero) (hsigil : c = '$' ∨ c = '@') :
      Crosses code index c walk (.stop ((walk.past c).copy index c) index)
  | doubled (hzero : (walk.depth.track c).isZero) (hsigil : c = '@')
      (hbefore : code.hasBefore index 1 '@') :
      Crosses code index c walk
        (.stop (((walk.past c).copy index c).copy (index - 1) '@') (index - 1))

theorem Depth.leftBracket_of_isZero {depth : Depth} (hzero : depth.isZero) :
    depth.leftBracket = false := by
  simp only [isZero, Bool.and_eq_true, decide_eq_true_eq] at hzero
  simp [leftBracket, hzero]

theorem Depth.track_blank {c : Char} (hblank : isBlank c) (depth : Depth) :
    depth.track c = depth := by
  simp only [isBlank, Bool.or_eq_true, decide_eq_true_eq] at hblank
  rcases hblank with ((rfl | rfl) | rfl) | rfl <;> rfl

/-- A step over a blank leaves the depth as it is. -/
theorem Crosses.depth_of_blank {code : Code} {index : Nat} {c : Char} {walk next : Walk}
    (hcrosses : Crosses code index c walk (.next next)) (hblank : isBlank c) :
    next.depth = walk.depth := by
  cases hcrosses with
  | blank => rfl
  | inside => exact Depth.track_blank hblank _
  | subscript => exact Depth.track_blank hblank _
  | skip => exact Depth.track_blank hblank _
  | copy => exact Depth.track_blank hblank _

namespace Code

variable {code : Code} {index : Nat} {c : Char} {walk : Walk}

theorem hasBefore_unique {distance : Nat} {d e : Char} (hd : code.hasBefore index distance d)
    (he : code.hasBefore index distance e) : d = e := by
  simp only [hasBefore, Bool.and_eq_true, decide_eq_true_eq] at hd he
  rw [hd.2] at he
  exact Option.some.inj he.2

/-- A character that stands in no signature is passed over. -/
theorem takeChar_of_not_signatureChar (hchar : isSignatureChar c = false) :
    code.takeChar index c walk = .next walk := by
  have hdollar : c ≠ '$' := fun h => by simp [h, isSignatureChar] at hchar
  have hat : c ≠ '@' := fun h => by simp [h, isSignatureChar] at hchar
  simp [takeChar, hchar, hdollar, hat]

theorem takeChar_crosses (hzero : (walk.depth.track c).isZero) (hboundary : isBoundary c = false) :
    Crosses code index c walk (code.takeChar index c (walk.past c)) := by
  by_cases hchar : isSignatureChar c
  · unfold takeChar
    by_cases hpercent : code.hasBefore index 1 '%'
    · simp only [hpercent, Bool.not_true, Bool.and_false, Bool.false_eq_true, if_false]
      split
      next hdollar => exact .percent hzero (.inl hdollar) hpercent
      next =>
        split
        next hat =>
          split
          next hbefore => exact absurd (hasBefore_unique hbefore hpercent) (by decide)
          next => exact .percent hzero (.inr hat) hpercent
        next => exact .skip hzero hboundary (.inr hpercent)
    · simp only [hpercent, hchar, Bool.not_false, Bool.and_self, if_true]
      split
      next hdollar => exact .sigil hzero (.inl hdollar)
      next hdollar =>
        split
        next hat =>
          split
          next hbefore => exact .doubled hzero hat hbefore
          next => exact .sigil hzero (.inr hat)
        next hat => exact .copy hzero hboundary hchar ⟨hdollar, hat⟩
  · rw [Bool.not_eq_true] at hchar
    rw [takeChar_of_not_signatureChar hchar]
    exact .skip hzero hboundary (.inl hchar)

theorem crossChar_inside (hleft : (walk.depth.track c).leftBracket = false)
    (hzero : (walk.depth.track c).isZero = false) :
    code.crossChar index c walk = .next (walk.past c) := by
  simp [crossChar, hleft, hzero, Walk.past]

theorem crossChar_subscript (hzero : (walk.depth.track '[').isZero)
    (hpercent : code.hasBefore index 2 '%' = false) :
    code.crossChar index '[' walk =
      .next { walk.past '[' with chars := '.' :: '[' :: ']' :: walk.chars } := by
  have hleft := Depth.leftBracket_of_isZero hzero
  simp [crossChar, hleft, hzero, hpercent, isBoundary, takeChar_of_not_signatureChar,
    isSignatureChar, Walk.past]

theorem crossChar_outside (hzero : (walk.depth.track c).isZero) (hboundary : isBoundary c = false)
    (hsubscript : c ≠ '[' ∨ code.hasBefore index 2 '%') :
    code.crossChar index c walk = code.takeChar index c (walk.past c) := by
  have hleft := Depth.leftBracket_of_isZero hzero
  rcases hsubscript with hc | hpercent <;> simp [crossChar, Walk.past, *]

/-- A walk ends where it leaves a bracket that it did not start in. -/
theorem crossChar_leave (hleft : (walk.depth.track c).leftBracket) :
    code.crossChar index c walk = .stop (walk.past c) (index + 1) := by
  have hzero : (walk.depth.track c).isZero = false := by
    cases hzero : (walk.depth.track c).isZero with
    | false => rfl
    | true => simp [Depth.leftBracket_of_isZero hzero] at hleft
  simp [crossChar, hleft, hzero, Walk.past]

theorem crossChar_boundary (hzero : (walk.depth.track c).isZero) (hboundary : isBoundary c) :
    code.crossChar index c walk = .stop (walk.past c) (index + 1) := by
  have hleft := Depth.leftBracket_of_isZero hzero
  have hsubscript : c ≠ '[' := fun hc => by simp [hc, isBoundary] at hboundary
  simp [crossChar, hleft, hzero, hboundary, hsubscript, Walk.past]

theorem crossChar_crosses : Crosses code index c walk (code.crossChar index c walk) := by
  cases hzero : (walk.depth.track c).isZero with
  | false =>
      cases hleft : (walk.depth.track c).leftBracket with
      | false =>
          rw [crossChar_inside hleft hzero]
          exact .inside hleft hzero
      | true =>
          rw [crossChar_leave hleft]
          exact .leave hleft
  | true =>
      cases hboundary : isBoundary c with
      | true =>
          rw [crossChar_boundary hzero hboundary]
          exact .boundary hzero hboundary
      | false =>
          by_cases hsubscript : c = '[' ∧ code.hasBefore index 2 '%' = false
          · obtain ⟨rfl, hpercent⟩ := hsubscript
            rw [crossChar_subscript hzero hpercent]
            exact .subscript rfl hzero hpercent
          · have hno : c ≠ '[' ∨ code.hasBefore index 2 '%' := by
              simpa only [Decidable.not_and_iff_not_or_not, Bool.not_eq_false] using hsubscript
            rw [crossChar_outside hzero hboundary hno]
            exact takeChar_crosses hzero hboundary

/-- A step does one of the things listed. -/
theorem stepBack_crosses : Crosses code index c walk (code.stepBack index c walk) := by
  unfold stepBack
  split
  next hblank =>
    rw [Bool.and_eq_true] at hblank
    exact .blank hblank.1 hblank.2
  next =>
    split
    next hbreak =>
      simp only [Bool.and_eq_true, decide_eq_true_eq, Bool.not_eq_true', ne_eq] at hbreak
      exact .break hbreak.1.1.1 hbreak.1.1.2 (by simpa using hbreak.1.2) hbreak.2
    next => exact crossChar_crosses

theorem walkBack_none (hc : code.chars[index]? = none) :
    code.walkBack walk (index + 1) = walk.finish 0 := by
  rw [walkBack]
  split
  next => rfl
  next d hd => rw [hc] at hd; contradiction

/-- A comment is passed over as a whole. -/
theorem walkBack_comment {comment : Span} (hc : code.chars[index]? = some c)
    (hcomment : code.commentHolding index = some comment) :
    code.walkBack walk (index + 1) =
      code.walkBack { walk with afterBlank := walk.afterBlank || walk.depth.isZero }
        comment.start := by
  rw [walkBack, hc]
  dsimp only
  split
  next other hother =>
    obtain rfl := Option.some.inj (hcomment.symm.trans hother)
    rfl
  next hnone => rw [hcomment] at hnone; contradiction

/-- Outside comments a walk takes one step after the other. -/
theorem walkBack_step (hc : code.chars[index]? = some c)
    (hnone : code.commentHolding index = none) :
    code.walkBack walk (index + 1) =
      match code.stepBack index c walk with
      | .next next => code.walkBack next index
      | .stop last start => last.finish start := by
  rw [walkBack, hc]
  dsimp only
  split
  next other hother => rw [hnone] at hother; contradiction
  next => rfl

/-- What a walk keeps. A property of walks and cursors that holds at the start and
survives comments and steps establishes what is to hold of the signature. -/
theorem walkBack_induction (motive : Walk → Nat → Prop) (result : Signature → Prop)
    (hcomment : ∀ walk index comment, motive walk (index + 1) →
      code.commentHolding index = some comment → comment.start ≤ index →
      motive { walk with afterBlank := walk.afterBlank || walk.depth.isZero } comment.start)
    (hnext : ∀ walk index c next, motive walk (index + 1) → code.chars[index]? = some c →
      code.commentHolding index = none → Crosses code index c walk (.next next) →
      motive next index)
    (hstop : ∀ walk index c last start, motive walk (index + 1) → code.chars[index]? = some c →
      code.commentHolding index = none → Crosses code index c walk (.stop last start) →
      result (last.finish start))
    (hdone : ∀ walk cursor, motive walk cursor → result (walk.finish 0))
    {cursor : Nat} (hstart : motive walk cursor) : result (code.walkBack walk cursor) := by
  fun_induction code.walkBack walk cursor with
  | case1 walk => exact hdone _ _ hstart
  | case2 walk index hnone => exact hdone _ _ hstart
  | case3 walk index c hc comment hfound hlt ih =>
      exact ih (hcomment _ _ _ hstart hfound (Nat.le_of_lt_succ hlt))
  | case4 walk index c hc hnone next hstep ih =>
      exact ih (hnext _ _ _ _ hstart hc hnone (hstep ▸ stepBack_crosses))
  | case5 walk index c hc hnone last start hstep =>
      exact hstop _ _ _ _ _ hstart hc hnone (hstep ▸ stepBack_crosses)

end Code

end Caret.Chain
