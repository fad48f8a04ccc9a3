import Caret.Proofs.Chain.Composition

/-! # Scans of a text without its first characters

A signature is determined by the text from its start on. Where the text in front is cut
off, a walk takes the same steps, each moved to the left by what is missing. It runs out
of text where the walk over the whole text stops, or crosses nothing but blanks before it
stops.
-/

namespace Caret.Chain

open Text

/-- Neither of the last two characters is a percent sign. -/
structure ClearEnd (text : List Char) : Prop where
  last : text.getLast? ≠ some '%'
  second : text.dropLast.getLast? ≠ some '%'

/-- A walk in a text with so many more characters in front. -/
def Walk.shift (places : Nat) (walk : Walk) : Walk :=
  { walk with anchor := walk.anchor.map (· + places) }

/-- A step in a text with so many more characters in front. -/
def Step.shift (places : Nat) : Step → Step
  | next walk => .next (walk.shift places)
  | stop walk start => .stop (walk.shift places) (start + places)

/-- A signature found again in a text with so many more characters in front, where it
starts no further to the left. -/
structure Signature.ShiftsTo (places : Nat) (rest whole : Signature) : Prop where
  chars : whole.chars = rest.chars
  anchor : whole.anchor = rest.anchor.map (· + places)
  start_le : rest.start + places ≤ whole.start

/-- A step that ends the signature at a start left of an offset. -/
def Step.StopsBefore (offset : Nat) (step : Step) : Prop :=
  ∃ last start, step = .stop last start ∧ start < offset

/-- A step found again in a text with so many more characters in front, unless there it
ends the signature among these. -/
def Step.ShiftsTo (places : Nat) (rest whole : Step) : Prop :=
  whole = rest.shift places ∨ whole.StopsBefore places

namespace Code

variable {pre left right : List Char} {c : Char}

theorem hasBefore_one_append (hne : left ≠ []) :
    (ofText (pre ++ left)).hasBefore (pre ++ left).length 1 c =
      (ofText left).hasBefore left.length 1 c := by
  rw [hasBefore_one, hasBefore_one]
  obtain ⟨init, last, rfl⟩ := (List.eq_nil_or_concat left).resolve_left hne
  simp

theorem hasBefore_one_percent (hclear : ClearEnd pre) (left : List Char) :
    (ofText (pre ++ left)).hasBefore (pre ++ left).length 1 '%' =
      (ofText left).hasBefore left.length 1 '%' := by
  by_cases hne : left = []
  · rw [hne, List.append_nil, hasBefore_one, hasBefore_one]
    simp [hclear.last]
  · exact hasBefore_one_append hne

theorem hasBefore_two_percent (hclear : ClearEnd pre) (left : List Char) :
    (ofText (pre ++ left)).hasBefore (pre ++ left).length 2 '%' =
      (ofText left).hasBefore left.length 2 '%' := by
  rw [hasBefore_two, hasBefore_two]
  rcases List.eq_nil_or_concat left with rfl | ⟨init, last, rfl⟩
  · simp [hclear.second]
  · rw [List.concat_eq_append, ← List.append_assoc, List.dropLast_concat, List.dropLast_concat,
      ← hasBefore_one, ← hasBefore_one, hasBefore_one_percent hclear]

/-- A character is taken as in the shorter text if the same sigil stands before it. -/
theorem takeChar_shift_of_sigil (hclear : ClearEnd pre)
    (hsigil : c = '@' → (ofText (pre ++ left)).hasBefore (pre ++ left).length 1 '@' =
      (ofText left).hasBefore left.length 1 '@') (walk : Walk) :
    (ofText (pre ++ left)).takeChar (pre ++ left).length c (walk.shift pre.length) =
      ((ofText left).takeChar left.length c walk).shift pre.length := by
  have hplace : (pre ++ left).length = left.length + pre.length := by
    rw [List.length_append, Nat.add_comm]
  unfold takeChar
  rw [hasBefore_one_percent hclear]
  by_cases hat : c = '@'
  · rw [hsigil hat]
    by_cases hbefore : (ofText left).hasBefore left.length 1 '@'
    · have hpos : 1 ≤ left.length := by
        rw [hasBefore, Bool.and_eq_true, decide_eq_true_iff] at hbefore
        exact hbefore.1
      have hhalf : left.length + pre.length - 1 = left.length - 1 + pre.length :=
        Nat.sub_add_comm hpos
      simp only [hat, hbefore, if_true, hplace, hhalf]
      split_ifs <;> rfl
    · rw [Bool.not_eq_true] at hbefore
      simp only [hbefore, Bool.false_eq_true, if_false, hplace]
      split_ifs <;> rfl
  · simp only [if_neg hat, hplace]
    split_ifs <;> rfl

/-- The second half of a sigil ends a signature before it. -/
theorem takeChar_stopsBefore (hlast : pre.getLast? = some '@') (walk : Walk) :
    ((ofText pre).takeChar pre.length '@' walk).StopsBefore pre.length := by
  have hbefore : (ofText pre).hasBefore pre.length 1 '@' := by
    rw [hasBefore_one, hlast]
    exact decide_eq_true rfl
  have hpos : 0 < pre.length := by
    rw [List.length_pos_iff]
    rintro rfl
    contradiction
  simp only [takeChar, hbefore]
  exact ⟨_, _, rfl, Nat.sub_lt hpos Nat.one_pos⟩

theorem takeChar_shift (hclear : ClearEnd pre) (left : List Char) (c : Char) (walk : Walk) :
    ((ofText left).takeChar left.length c walk).ShiftsTo pre.length
      ((ofText (pre ++ left)).takeChar (pre ++ left).length c (walk.shift pre.length)) := by
  by_cases hcut : left = [] ∧ c = '@' ∧ pre.getLast? = some '@'
  · obtain ⟨rfl, rfl, hlast⟩ := hcut
    right
    rw [List.append_nil]
    exact takeChar_stopsBefore hlast _
  · left
    apply takeChar_shift_of_sigil hclear
    intro hat
    by_cases hne : left = []
    · have hlast : pre.getLast? ≠ some '@' := fun hlast => hcut ⟨hne, hat, hlast⟩
      rw [hne, List.append_nil, hasBefore_one, hasBefore_one]
      simp [hlast]
    · exact hasBefore_one_append hne

theorem crossChar_shift (hclear : ClearEnd pre) (left : List Char) (c : Char) (walk : Walk) :
    ((ofText left).crossChar left.length c walk).ShiftsTo pre.length
      ((ofText (pre ++ left)).crossChar (pre ++ left).length c (walk.shift pre.length)) := by
  have hpercent := hasBefore_two_percent hclear left
  have hplace : (pre ++ left).length + 1 = left.length + 1 + pre.length := by
    rw [List.length_append, Nat.add_comm pre.length, Nat.add_right_comm]
  cases hzero : (walk.depth.track c).isZero with
  | false =>
      left
      cases hleft : (walk.depth.track c).leftBracket with
      | false =>
          rw [crossChar_inside hleft hzero]
          exact crossChar_inside hleft hzero
      | true =>
          rw [crossChar_leave hleft, Step.shift, ← hplace]
          exact crossChar_leave hleft
  | true =>
      cases hboundary : isBoundary c with
      | true =>
          left
          rw [crossChar_boundary hzero hboundary, Step.shift, ← hplace]
          exact crossChar_boundary hzero hboundary
      | false =>
          by_cases hsubscript : c = '[' ∧ (ofText left).hasBefore left.length 2 '%' = false
          · obtain ⟨rfl, hnone⟩ := hsubscript
            left
            rw [crossChar_subscript hzero hnone]
            exact crossChar_subscript hzero (hpercent.trans hnone)
          · have hno : c ≠ '[' ∨ (ofText left).hasBefore left.length 2 '%' := by
              simpa only [Decidable.not_and_iff_not_or_not, Bool.not_eq_false] using hsubscript
            have hwhole := @crossChar_outside (ofText (pre ++ left)) (pre ++ left).length c
              (walk.shift pre.length) hzero hboundary (hno.imp_right hpercent.trans)
            rw [crossChar_outside hzero hboundary hno, hwhole]
            exact takeChar_shift hclear left c (walk.past c)

/-- A step is the one in the shorter text, unless it ends the signature in what is cut
off. -/
theorem stepBack_shift (hclear : ClearEnd pre) (left right : List Char) (c : Char)
    (walk : Walk) :
    ((ofText (left ++ c :: right)).stepBack left.length c walk).ShiftsTo pre.length
      ((ofText (pre ++ left ++ c :: right)).stepBack (pre ++ left).length c
        (walk.shift pre.length)) := by
  have hblanks : (pre ++ left).length + 1 + (right.takeWhile isBlank).length =
      left.length + 1 + (right.takeWhile isBlank).length + pre.length := by
    rw [List.length_append]
    omega
  unfold stepBack
  rw [continuesChain_succ, continuesChain_succ, skipBlanks_succ, skipBlanks_succ, hblanks,
    crossChar_append, crossChar_append]
  have hdepth : (walk.shift pre.length).depth = walk.depth := rfl
  have hafter : (walk.shift pre.length).afterBlank = walk.afterBlank := rfl
  rw [hdepth, hafter]
  split
  next => exact .inl rfl
  next =>
    split
    next => exact .inl rfl
    next => exact crossChar_shift hclear left c walk

end Code

section Between

variable {pre left middle right : List Char} {walk : Walk}

/-- A walk that has passed some characters ends left of the last of them, unless it has
passed nothing but blanks outside all brackets. -/
theorem walkBetween_start_lt (hne : middle ≠ [])
    (hpassed : walk.depth.isZero → middle.any (!isBlank ·)) :
    (walkBetween left (middle ++ right) walk).start < left.length + middle.length := by
  have hpos : 0 < middle.length := List.length_pos_iff.mpr hne
  induction left using List.reverseRecOn generalizing middle walk with
  | nil =>
      rw [walkBetween_nil]
      exact Nat.lt_add_left _ hpos
  | append_singleton init c ih =>
      rw [walkBetween_concat, List.length_append, List.length_singleton]
      split
      next next hstep =>
        have hcrosses := hstep ▸ Code.stepBack_crosses
        have hrest := @ih (c :: middle) next (List.cons_ne_nil _ _) ?_ (Nat.succ_pos _)
        · rw [List.length_cons] at hrest
          rw [List.cons_append] at hrest
          omega
        · intro hzero
          cases hblank : isBlank c with
          | false => simp [hblank]
          | true =>
              rw [hcrosses.depth_of_blank hblank] at hzero
              rw [List.any_cons, hpassed hzero, Bool.or_true]
      next last start hstep =>
        have hcrosses := hstep ▸ Code.stepBack_crosses
        show start < _
        cases hcrosses with
        | «break» hzero =>
            have hmiddle := hpassed hzero
            have hblanks := length_takeWhile_isBlank_lt hmiddle
            rw [Code.skipBlanks_succ, takeWhile_isBlank_append hmiddle]
            omega
        | leave => omega
        | boundary => omega
        | percent => omega
        | sigil => omega
        | doubled => omega

/-- A walk that ends right of its cursor adds nothing to what it has gathered. -/
theorem walkBetween_of_le_start {last : Nat} (hlast : left.length ≤ last)
    (hle : last ≤ (walkBetween left right walk).start) :
    (walkBetween left right walk).chars = walk.chars ∧
      (walkBetween left right walk).anchor = walk.anchor := by
  induction left using List.reverseRecOn generalizing right walk with
  | nil =>
      rw [walkBetween_nil]
      exact ⟨rfl, rfl⟩
  | append_singleton init c ih =>
      rw [List.length_append, List.length_singleton] at hlast
      rw [walkBetween_concat] at hle ⊢
      split
      next next hstep =>
        rw [hstep] at hle
        have hstart : last ≤ (walkBetween init (c :: right) next).start := hle
        by_cases hblank : walk.depth.isZero && isBlank c
        · rw [Code.stepBack, if_pos hblank] at hstep
          obtain rfl := Step.next.inj hstep
          exact ih (Nat.le_of_succ_le hlast) hstart
        · have hcrosses := hstep ▸ Code.stepBack_crosses
          have hpassed : next.depth.isZero → [c].any (!isBlank ·) := by
            intro hzero
            cases hc : isBlank c with
            | false => simp [hc]
            | true =>
                rw [hcrosses.depth_of_blank hc] at hzero
                simp [hzero, hc] at hblank
          have hless := @walkBetween_start_lt init [c] right next (List.cons_ne_nil _ _) hpassed
          rw [List.length_singleton, List.singleton_append] at hless
          omega
      next stopped start hstep =>
        rw [hstep] at hle
        have hcrosses := hstep ▸ Code.stepBack_crosses
        have hstart : last ≤ start := hle
        cases hcrosses with
        | «break» => exact ⟨rfl, rfl⟩
        | leave => exact ⟨rfl, rfl⟩
        | boundary => exact ⟨rfl, rfl⟩
        | percent => omega
        | sigil => omega
        | doubled => omega

/-- A walk that does not end in the first characters gathers what it gathers without
them. -/
theorem walkBetween_shift (hclear : ClearEnd pre)
    (hle : pre.length ≤ (walkBetween (pre ++ left) right (walk.shift pre.length)).start) :
    (walkBetween left right walk).ShiftsTo pre.length
      (walkBetween (pre ++ left) right (walk.shift pre.length)) := by
  induction left using List.reverseRecOn generalizing right walk with
  | nil =>
      rw [List.append_nil] at hle ⊢
      obtain ⟨hchars, hanchor⟩ := walkBetween_of_le_start (Nat.le_refl _) hle
      rw [walkBetween_nil]
      refine ⟨hchars, hanchor, ?_⟩
      rw [Walk.finish, Nat.zero_add]
      exact hle
  | append_singleton init c ih =>
      rw [← List.append_assoc, walkBetween_concat] at hle ⊢
      rw [walkBetween_concat]
      rcases Code.stepBack_shift hclear init right c walk with hsame | hbefore
      · rw [hsame] at hle ⊢
        cases hstep : (Code.ofText (init ++ c :: right)).stepBack init.length c walk with
        | next next =>
            rw [hstep] at hle
            exact ih hle
        | stop last start => exact ⟨rfl, rfl, Nat.le_refl _⟩
      · obtain ⟨last, start, hstop, hless⟩ := hbefore
        rw [hstop] at hle
        exact absurd hle (Nat.not_le_of_lt hless)

end Between

/-- The signature at an offset of a text without comments. -/
def signatureAt (text : List Char) (offset : Nat) : Signature :=
  (Code.ofText text).scan offset .normal

theorem signatureAt_append (left right : List Char) :
    signatureAt (left ++ right) left.length =
      { walkBetween left right (.start false) with
        start := min (walkBetween left right (.start false)).start left.length } := by
  have hsize : (Code.ofText (left ++ right)).chars.size = left.length + right.length := by
    simp [Code.ofText]
  rw [signatureAt, Code.scan, hsize, Nat.min_eq_left (Nat.le_add_right _ _)]
  rfl

/-- A signature does not start right of its offset. -/
theorem start_signatureAt_le (text : List Char) (offset : Nat) :
    (signatureAt text offset).start ≤ offset :=
  Nat.le_trans (Nat.min_le_right _ _) (Nat.min_le_left _ _)

/-- A signature is determined by the text from its start on, if neither of the two
characters before it is a percent sign. -/
theorem signatureAt_drop {text : List Char} {offset start : Nat} (hoffset : offset ≤ text.length)
    (hstart : (signatureAt text offset).start = start) (hclear : ClearEnd (text.take start)) :
    (signatureAt (text.drop start) (offset - start)).start = 0 ∧
      (signatureAt (text.drop start) (offset - start)).chars = (signatureAt text offset).chars ∧
      (signatureAt text offset).anchor =
        (signatureAt (text.drop start) (offset - start)).anchor.map (· + start) := by
  have hle : start ≤ offset := hstart ▸ start_signatureAt_le text offset
  obtain ⟨pre, rest, rfl, rfl⟩ : ∃ pre rest, text = pre ++ rest ∧ pre.length = start :=
    ⟨text.take start, text.drop start, (List.take_append_drop start text).symm,
      List.length_take_of_le (Nat.le_trans hle hoffset)⟩
  obtain ⟨left, right, rfl, hleft⟩ :
      ∃ left right, rest = left ++ right ∧ left.length = offset - pre.length := by
    rw [List.length_append] at hoffset
    exact ⟨rest.take (offset - pre.length), rest.drop (offset - pre.length),
      (List.take_append_drop _ rest).symm, List.length_take_of_le (by omega)⟩
  have hcursor : (pre ++ left).length = offset := by
    rw [List.length_append, hleft, Nat.add_sub_cancel' hle]
  rw [List.take_left] at hclear
  rw [List.drop_left, ← hleft]
  rw [← List.append_assoc, ← hcursor] at hstart ⊢
  rw [signatureAt_append] at hstart ⊢
  rw [signatureAt_append]
  have hshifts : (walkBetween left right (.start false)).ShiftsTo pre.length
      (walkBetween (pre ++ left) right (.start false)) :=
    walkBetween_shift hclear (hstart ▸ Nat.min_le_left _ _)
  refine ⟨?_, hshifts.chars.symm, hshifts.anchor⟩
  have hstarts := hshifts.start_le
  rw [List.length_append] at hstart
  dsimp only at hstart ⊢
  omega

/-- A call in an argument of another one, after a literal. -/
def nestedCall : List Char :=
  "%w(a) + go(x.y[0].z".toList

theorem signatureAt_drop_nestedCall :
    nestedCall.length ≤ nestedCall.length ∧
      (signatureAt nestedCall nestedCall.length).start = 11 ∧ ClearEnd (nestedCall.take 11) ∧
      (signatureAt (nestedCall.drop 11) (nestedCall.length - 11)).start = 0 ∧
      (signatureAt (nestedCall.drop 11) (nestedCall.length - 11)).chars =
        (signatureAt nestedCall nestedCall.length).chars ∧
      (signatureAt nestedCall nestedCall.length).anchor =
        (signatureAt (nestedCall.drop 11) (nestedCall.length - 11)).anchor.map (· + 11) :=
  have hstart : (signatureAt nestedCall nestedCall.length).start = 11 := by decide +kernel
  have hclear : ClearEnd (nestedCall.take 11) := ⟨by decide, by decide⟩
  ⟨Nat.le_refl _, hstart, hclear, signatureAt_drop (Nat.le_refl _) hstart hclear⟩

-- The scan of the whole text sees a percent sign before the start, the other one does not.
example : ((Code.ofText "%$a".toList).scan 3 .normal).chars = "a".toList ∧
    ((Code.ofText "$a".toList).scan 2 .normal).chars = "$a".toList := by
  decide +kernel

end Caret.Chain
