import Caret.Proofs.Chain.Walks
import Mathlib.Data.List.TakeWhile

/-! # Composition of chains

A chain may be scanned link by link. Where arguments, a block or a subscript, a dot
and a name follow a name, the signature grows by what the new link gives, and its
start stays where it was.
-/

namespace Caret.Chain

open Text

section Tail

/-- A walk with more gathered right of it. -/
def Walk.withTail (walk : Walk) (tail : List Char) (anchor : Option Nat) : Walk :=
  { walk with anchor := walk.anchor.or anchor, chars := walk.chars ++ tail }

def Signature.withTail (signature : Signature) (tail : List Char) (anchor : Option Nat) :
    Signature :=
  { signature with anchor := signature.anchor.or anchor, chars := signature.chars ++ tail }

def Step.withTail (tail : List Char) (anchor : Option Nat) : Step → Step
  | next walk => .next (walk.withTail tail anchor)
  | stop walk start => .stop (walk.withTail tail anchor) start

theorem Step.withTail_next (tail : List Char) (anchor : Option Nat) (walk : Walk) :
    (Step.next walk).withTail tail anchor = .next (walk.withTail tail anchor) := rfl

theorem Step.withTail_stop (tail : List Char) (anchor : Option Nat) (walk : Walk) (start : Nat) :
    (Step.stop walk start).withTail tail anchor = .stop (walk.withTail tail anchor) start := rfl

namespace Code

variable (code : Code) (index : Nat) (c : Char) (walk : Walk) (tail : List Char)
  (anchor : Option Nat)

theorem takeChar_withTail : code.takeChar index c (walk.withTail tail anchor) =
    (code.takeChar index c walk).withTail tail anchor := by
  unfold takeChar
  dsimp only
  split_ifs <;> rfl

theorem crossChar_withTail : code.crossChar index c (walk.withTail tail anchor) =
    (code.crossChar index c walk).withTail tail anchor := by
  unfold crossChar
  simp only [apply_ite (Step.withTail tail anchor), ← takeChar_withTail, Step.withTail_next,
    Step.withTail_stop]
  cases hsub : (c = '[' && (walk.depth.track c).isZero && !code.hasBefore index 2 '%') with
  | false => simp only [Walk.withTail, hsub, Bool.false_eq_true, if_false]
  | true => simp only [Walk.withTail, hsub, if_true, List.cons_append]

theorem stepBack_withTail : code.stepBack index c (walk.withTail tail anchor) =
    (code.stepBack index c walk).withTail tail anchor := by
  unfold stepBack
  have hdepth : (walk.withTail tail anchor).depth = walk.depth := rfl
  have hafter : (walk.withTail tail anchor).afterBlank = walk.afterBlank := rfl
  rw [hdepth, hafter, crossChar_withTail]
  split
  next => rfl
  next => split <;> rfl

/-- What a walk has gathered does not change where it goes. -/
theorem walkBack_withTail (cursor : Nat) : code.walkBack (walk.withTail tail anchor) cursor =
    (code.walkBack walk cursor).withTail tail anchor := by
  fun_induction code.walkBack walk cursor with
  | case1 walk =>
      rw [walkBack]
      rfl
  | case2 walk index hnone =>
      rw [walkBack_none hnone]
      rfl
  | case3 walk index c hc comment hfound hlt ih =>
      rw [walkBack_comment hc hfound]
      exact ih
  | case4 walk index c hc hnone next hstep ih =>
      rw [walkBack_step hc hnone, stepBack_withTail, hstep]
      exact ih
  | case5 walk index c hc hnone last start hstep =>
      rw [walkBack_step hc hnone, stepBack_withTail, hstep]
      exact rfl

end Code

theorem walkBetween_withTail (left right : List Char) (walk : Walk) (tail : List Char)
    (anchor : Option Nat) : walkBetween left right (walk.withTail tail anchor) =
    (walkBetween left right walk).withTail tail anchor :=
  Code.walkBack_withTail _ _ _ _ _

end Tail

section Sight

variable {left middle right : List Char} {c : Char} {walk : Walk}

theorem dotLeads_append (hmiddle : middle.any (!isBlank ·)) :
    dotLeads (middle ++ right) = dotLeads middle := by
  have hne : middle.dropWhile isBlank ≠ [] := by
    rw [ne_eq, List.dropWhile_eq_nil_iff]
    simpa using hmiddle
  obtain ⟨c, rest, hrest⟩ := List.exists_cons_of_ne_nil hne
  rw [dotLeads, dotLeads, List.dropWhile_append, hrest]
  rfl

theorem length_takeWhile_isBlank_lt (hmiddle : middle.any (!isBlank ·)) :
    (middle.takeWhile isBlank).length < middle.length := by
  apply Nat.lt_of_le_of_ne (List.takeWhile_prefix isBlank).length_le
  intro hlength
  have hself := (List.takeWhile_prefix isBlank).eq_of_length hlength
  rw [List.takeWhile_eq_self_iff] at hself
  simp only [List.any_eq_true, Bool.not_eq_true'] at hmiddle
  obtain ⟨c, hmem, hc⟩ := hmiddle
  exact absurd (hself c hmem) (by simp [hc])

theorem takeWhile_isBlank_append (hmiddle : middle.any (!isBlank ·)) :
    (middle ++ right).takeWhile isBlank = middle.takeWhile isBlank := by
  rw [List.takeWhile_append, if_neg]
  exact Nat.ne_of_lt (length_takeWhile_isBlank_lt hmiddle)

theorem Code.crossChar_append : (ofText (left ++ right)).crossChar left.length c walk =
    (ofText left).crossChar left.length c walk := by
  simp only [crossChar, takeChar, hasBefore_append left right Nat.one_pos,
    hasBefore_append left right Nat.two_pos]

theorem Code.stepBack_congr (hleads : dotLeads middle = dotLeads right)
    (hblanks : middle.takeWhile isBlank = right.takeWhile isBlank) :
    (ofText (left ++ c :: middle)).stepBack left.length c walk =
      (ofText (left ++ c :: right)).stepBack left.length c walk := by
  unfold stepBack
  rw [continuesChain_succ, continuesChain_succ, hleads, skipBlanks_succ, skipBlanks_succ, hblanks,
    crossChar_append, crossChar_append]

/-- Of the text right of it a walk sees the blanks at the start, and whether a dot follows
them. -/
theorem walkBetween_congr (hleads : dotLeads middle = dotLeads right)
    (hblanks : middle.takeWhile isBlank = right.takeWhile isBlank) :
    walkBetween left middle walk = walkBetween left right walk := by
  induction left using List.reverseRecOn generalizing middle right walk with
  | nil => rw [walkBetween_nil, walkBetween_nil]
  | append_singleton init c ih =>
      rw [walkBetween_concat, walkBetween_concat, Code.stepBack_congr hleads hblanks]
      split
      next next hstep =>
        apply ih
        · by_cases hblank : isBlank c <;> simp_all [dotLeads]
        · by_cases hblank : isBlank c <;> simp [hblank, hblanks]
      next => rfl

/-- Left of a significant character a walk sees nothing of the text right of it. -/
theorem walkBetween_append (hmiddle : middle.any (!isBlank ·)) :
    walkBetween left (middle ++ right) walk = walkBetween left middle walk :=
  walkBetween_congr (dotLeads_append hmiddle) (takeWhile_isBlank_append hmiddle)

end Sight

/-- A link of a chain: perhaps a bracket pair, a dot among blanks, and a name that may
still be empty. -/
structure Link where
  group : Option Group
  before : List Char
  after : List Char
  name : List Char
  blank_before : ∀ c ∈ before, isBlank c
  blank_after : ∀ c ∈ after, isBlank c
  word : ∀ c ∈ name, isWordChar c

namespace Link

def groupText (link : Link) : List Char :=
  (link.group.map Group.text).getD []

def text (link : Link) : List Char :=
  link.groupText ++ link.before ++ '.' :: (link.after ++ link.name)

/-- What the link adds to a signature. -/
def mark (link : Link) : List Char :=
  (link.group.map (·.bracket.mark)).getD [] ++ '.' :: link.name

end Link

theorem dotLeads_blanks {blanks : List Char} (hblanks : ∀ c ∈ blanks, isBlank c)
    (right : List Char) : dotLeads (blanks ++ '.' :: right) := by
  rw [dotLeads, List.dropWhile_append_of_pos hblanks]
  rfl

section Link

variable {pre : List Char} (link : Link)

/-- A walk over a link arrives at what stands before it outside all brackets. -/
theorem walkBetween_link (hword : pre.getLast?.any isWordChar)
    (hpercent : ∀ group ∈ link.group, group.bracket = .square → pre.dropLast.getLast? ≠ some '%')
    (hshort : (pre ++ link.text).length < 0x80000000) :
    ∃ walk, walkBetween (pre ++ link.text) [] (.start false) = walkBetween pre link.text walk ∧
      walk.depth.isZero ∧ walk.chars = link.mark ∧
        (walk.afterBlank = false ∨ dotLeads link.text) := by
  have hpre : pre.getLast? ≠ some '%' := fun heq => by
    rw [heq] at hword
    contradiction
  have hdotted : ∀ left, left.getLast? ≠ some '%' → ∃ walk,
      walkBetween (left ++ link.before ++ '.' :: (link.after ++ link.name)) [] (.start false) =
        walkBetween left (link.before ++ '.' :: (link.after ++ link.name)) walk ∧
      walk.depth.isZero ∧ walk.chars = '.' :: link.name := by
    intro left hleft
    obtain ⟨walk, hwalk, hzero, hchars, -⟩ := @walkBetween_dotted left [] (.start false) _ _ _
      link.blank_before link.blank_after link.word rfl rfl hleft
    rw [List.append_nil] at hwalk
    exact ⟨walk, hwalk, hzero, hchars.trans (List.append_nil _)⟩
  cases hgroup : link.group with
  | none =>
      obtain ⟨walk, hwalk, hzero, hchars⟩ := hdotted pre hpre
      have htext : link.text = link.before ++ '.' :: (link.after ++ link.name) := by
        simp [Link.text, Link.groupText, hgroup]
      refine ⟨walk, ?_, hzero, ?_, .inr ?_⟩
      · rw [htext, ← hwalk, List.append_assoc]
      · simp [Link.mark, hgroup, hchars]
      · rw [htext]
        exact dotLeads_blanks link.blank_before _
  | some group =>
      have hlast : (pre ++ group.text).getLast? ≠ some '%' := by
        rw [group.getLast?_text]
        cases group.bracket <;> decide
      obtain ⟨walk, hwalk, hzero, hchars⟩ := hdotted (pre ++ group.text) hlast
      have htext : link.text =
          group.text ++ (link.before ++ '.' :: (link.after ++ link.name)) := by
        simp [Link.text, Link.groupText, hgroup]
      have hgroupshort : group.text.length < 0x80000000 := by
        rw [htext] at hshort
        simp only [List.length_append] at hshort
        omega
      have hleads := dotLeads_blanks link.blank_before (link.after ++ link.name)
      have hcross := walkBetween_group group hzero hgroupshort (.inr hleads) (hpercent group hgroup)
      refine ⟨{ walk with chars := group.bracket.mark ++ walk.chars, afterBlank := false },
        ?_, hzero, ?_, .inl rfl⟩
      · rw [htext, ← hcross, ← hwalk]
        simp
      · simp [Link.mark, hgroup, hchars]

/-- From the end of a name on, a walk outside all brackets gathers what a scan that
starts there gathers. -/
theorem walkBetween_eq_withTail (hword : pre.getLast?.any isWordChar) {right : List Char}
    {walk : Walk} (hzero : walk.depth.isZero)
    (hgoes : walk.afterBlank = false ∨ dotLeads right) :
    walkBetween pre right walk =
      (walkBetween pre [] (.start false)).withTail walk.chars walk.anchor := by
  rcases List.eq_nil_or_concat pre with rfl | ⟨init, c, rfl⟩
  · contradiction
  · rw [List.concat_eq_append] at hword ⊢
    have hchar : isWordChar c := by simpa using hword
    have hblank : isBlank c = false := (classes_of_copied (.inl hchar)).1
    -- Crossing a character of a name forgets whether blanks follow it.
    have hcross : (Code.ofText init).crossChar init.length c walk =
        ((Code.ofText init).crossChar init.length c (.start false)).withTail walk.chars
          walk.anchor := by
      rw [← Code.crossChar_withTail]
      obtain ⟨anchor, chars, depth, afterBlank⟩ := walk
      obtain rfl : depth = .zero := Depth.isZero_iff.mp hzero
      rfl
    rw [walkBetween_concat, walkBetween_concat,
      Code.stepBack_eq_crossChar (.inr hblank) (.inr (hgoes.imp_right .inr)),
      Code.stepBack_eq_crossChar (.inr hblank) (.inr (.inl rfl)), Code.crossChar_append,
      Code.crossChar_append, hcross]
    cases (Code.ofText init).crossChar init.length c (.start false) with
    | next next =>
        have hsight := @walkBetween_append init [c] right (next.withTail walk.chars walk.anchor)
          (by simp [hblank])
        exact hsight.trans (Code.walkBack_withTail _ _ _ _ _)
    | stop last start => rfl

/-- A link adds its mark to the signature of the chain before it, whatever stands in
its brackets and whatever blanks surround its dot. The chain starts where it did. The
brackets of a percent literal are no subscript. -/
theorem endSignature_link (hword : pre.getLast?.any isWordChar)
    (hpercent : ∀ group ∈ link.group, group.bracket = .square → pre.dropLast.getLast? ≠ some '%')
    (hshort : (pre ++ link.text).length < 0x80000000) :
    (endSignature (pre ++ link.text)).chars = (endSignature pre).chars ++ link.mark ∧
      (endSignature (pre ++ link.text)).start = (endSignature pre).start := by
  obtain ⟨walk, hwalk, hzero, hchars, hgoes⟩ := walkBetween_link link hword hpercent hshort
  rw [endSignature_eq, endSignature_eq, hwalk, walkBetween_eq_withTail hword hzero hgoes, ← hchars]
  exact ⟨rfl, rfl⟩

/-- A subscript with a call in it, and a dot on a line of its own. -/
def sizeLink : Link where
  group := some ⟨.square, "k, (1)".toList,
    .plain (by decide) <| .plain (by decide) <| .plain (by decide) <|
      .pair .round (.plain (by decide) .nil) .nil⟩
  before := ['\n']
  after := ['\n']
  name := "size".toList
  blank_before := by simp [isBlank]
  blank_after := by simp [isBlank]
  word := by simp [isWordChar]

theorem endSignature_link_size :
    "foo".toList.getLast?.any isWordChar ∧
      (∀ group ∈ sizeLink.group, group.bracket = .square →
        "foo".toList.dropLast.getLast? ≠ some '%') ∧
      ("foo".toList ++ sizeLink.text).length < 0x80000000 ∧
      (endSignature ("foo".toList ++ sizeLink.text)).chars =
        (endSignature "foo".toList).chars ++ sizeLink.mark ∧
      (endSignature ("foo".toList ++ sizeLink.text)).start = (endSignature "foo".toList).start :=
  have hword : "foo".toList.getLast?.any isWordChar := by decide
  have hpercent : ∀ group ∈ sizeLink.group, group.bracket = .square →
      "foo".toList.dropLast.getLast? ≠ some '%' := fun _ _ _ => by decide
  have hshort : ("foo".toList ++ sizeLink.text).length < 0x80000000 := by decide
  ⟨hword, hpercent, hshort, endSignature_link sizeLink hword hpercent hshort⟩

example : (endSignature "foo[k, (1)]\n.\nsize".toList).chars = "foo.[].size".toList := by
  decide +kernel

end Link

end Caret.Chain
