import Caret.Proofs.Chain.Blanking
import Caret.Proofs.Chain.Steps

/-! # What a scan sees of the text after its offset

A walk to the left looks to the right at every break, over blanks and comments, and
this look may pass the offset the walk started from. All that it can find there is a
dot. Texts that are alike up to the offset, and not followed by a dot, give the same
signature.
-/

namespace Caret.Chain

open Text

namespace Code

/-- A place that is blank or inside a comment. -/
def InGap (code : Code) (index : Nat) : Prop :=
  code.chars[index]?.any isBlank ∨ code.commented index

/-- The first character from an offset on that is neither blank nor inside a comment
is a dot. -/
def DotFollows (code : Code) (offset : Nat) : Prop :=
  ∃ place, offset ≤ place ∧ code.chars[place]? = some '.' ∧ ¬ code.InGap place ∧
    ∀ index, offset ≤ index → index < place → code.InGap index

/-- Two texts with the same comments whose characters agree below a limit. -/
structure AlikeUpTo (limit : Nat) (left right : Code) : Prop where
  comments : left.comments = right.comments
  chars : ∀ index < limit, left.chars[index]? = right.chars[index]?

section Skip

variable {code : Code} {offset place : Nat}

theorem inGap_of_lt_skipBlanks (hfrom : offset ≤ place) (hto : place < code.skipBlanks offset) :
    code.InGap place :=
  blank_or_commented_of_lt_skipBlanks hfrom hto

theorem not_inGap_skipBlanks (hinorder : InOrder code.comments) (offset : Nat) :
    ¬ code.InGap (code.skipBlanks offset) := by
  rintro (hblank | hcommented)
  · rw [not_blank_skipBlanks] at hblank
    contradiction
  · rw [not_commented_skipBlanks hinorder] at hcommented
    contradiction

/-- Blanks and comments end at the first place outside of them. -/
theorem skipBlanks_eq (hinorder : InOrder code.comments) (hfrom : offset ≤ place)
    (hplace : ¬ code.InGap place)
    (hgap : ∀ index, offset ≤ index → index < place → code.InGap index) :
    code.skipBlanks offset = place := by
  apply Nat.le_antisymm
  · apply Nat.le_of_not_lt
    intro hlt
    exact hplace (inGap_of_lt_skipBlanks hfrom hlt)
  · apply Nat.le_of_not_lt
    intro hlt
    exact not_inGap_skipBlanks hinorder offset (hgap _ (le_skipBlanks code offset) hlt)

/-- A chain goes on just where a dot follows. -/
theorem continuesChain_iff_dotFollows (hinorder : InOrder code.comments) (offset : Nat) :
    code.continuesChain offset ↔ code.DotFollows offset := by
  rw [continuesChain, decide_eq_true_iff]
  constructor
  · intro hdot
    exact ⟨code.skipBlanks offset, le_skipBlanks code offset, hdot,
      not_inGap_skipBlanks hinorder offset, fun _ => inGap_of_lt_skipBlanks⟩
  · rintro ⟨place, hfrom, hdot, hplace, hgap⟩
    rw [skipBlanks_eq hinorder hfrom hplace hgap]
    exact hdot

end Skip

end Code

/-- A signature that starts at a limit at the latest. -/
def Signature.cut (limit : Nat) (signature : Signature) : Signature :=
  { signature with start := min signature.start limit }

/-- A step whose signature, if it ends here, starts at a limit at the latest. -/
def Step.cut (limit : Nat) : Step → Step
  | .next walk => .next walk
  | .stop walk start => .stop walk (min start limit)

namespace Step

variable {limit : Nat} {walk : Walk} {other : Step}

theorem eq_next_of_cut (hsame : (next walk).cut limit = other.cut limit) : other = next walk := by
  cases other with
  | next walk => exact hsame.symm
  | stop walk start => contradiction

theorem exists_stop_of_cut {start : Nat} (hsame : (stop walk start).cut limit = other.cut limit) :
    ∃ startOther, other = stop walk startOther ∧ min start limit = min startOther limit := by
  cases other with
  | next walk => contradiction
  | stop last startOther =>
      obtain ⟨rfl, hstart⟩ := Step.stop.inj hsame
      exact ⟨startOther, rfl, hstart⟩

end Step

namespace Code

namespace AlikeUpTo

variable {left right : Code} {limit : Nat}

theorem symm (halike : AlikeUpTo limit left right) : AlikeUpTo limit right left where
  comments := halike.comments.symm
  chars index hlt := (halike.chars index hlt).symm

theorem commentHolding (halike : AlikeUpTo limit left right) (index : Nat) :
    left.commentHolding index = right.commentHolding index :=
  congrArg (holding · index) halike.comments

theorem inGap (halike : AlikeUpTo limit left right) {index : Nat} (hlt : index < limit)
    (hgap : left.InGap index) : right.InGap index := by
  rw [InGap, commented] at hgap ⊢
  rwa [← halike.chars index hlt, ← halike.comments]

/-- Where no dot follows the limit, one that follows an earlier offset stands below the
limit, and so in both texts. -/
theorem dotFollows (halike : AlikeUpTo limit left right) (hnone : ¬ left.DotFollows limit)
    {offset : Nat} (hle : offset ≤ limit) (hdot : left.DotFollows offset) :
    right.DotFollows offset := by
  obtain ⟨place, hfrom, hchar, hplace, hgap⟩ := hdot
  have hbelow : place < limit := by
    apply Nat.lt_of_not_le
    intro hlimit
    exact hnone ⟨place, hlimit, hchar, hplace,
      fun index hindex => hgap index (Nat.le_trans hle hindex)⟩
  refine ⟨place, hfrom, ?_, ?_, ?_⟩
  · rw [← halike.chars place hbelow]
    exact hchar
  · intro hother
    exact hplace (halike.symm.inGap hbelow hother)
  · intro index hindex hto
    exact halike.inGap (Nat.lt_trans hto hbelow) (hgap index hindex hto)

theorem continuesChain (halike : AlikeUpTo limit left right) (hinorder : InOrder left.comments)
    (hleft : ¬ left.DotFollows limit) (hright : ¬ right.DotFollows limit) {offset : Nat}
    (hle : offset ≤ limit) : left.continuesChain offset = right.continuesChain offset := by
  have hother : InOrder right.comments := halike.comments ▸ hinorder
  rw [Bool.eq_iff_iff, continuesChain_iff_dotFollows hinorder,
    continuesChain_iff_dotFollows hother]
  exact ⟨halike.dotFollows hleft hle, halike.symm.dotFollows hright hle⟩

theorem skipBlanks_of_lt (halike : AlikeUpTo limit left right)
    (hinorder : InOrder left.comments) {offset : Nat} (hlt : left.skipBlanks offset < limit) :
    right.skipBlanks offset = left.skipBlanks offset := by
  apply skipBlanks_eq (halike.comments ▸ hinorder) (le_skipBlanks left offset)
  · intro hgap
    exact not_inGap_skipBlanks hinorder offset (halike.symm.inGap hlt hgap)
  · intro index hfrom hto
    exact halike.inGap (Nat.lt_trans hto hlt) (inGap_of_lt_skipBlanks hfrom hto)

/-- The blanks after an offset end at the same place, or beyond the limit in both texts. -/
theorem min_skipBlanks (halike : AlikeUpTo limit left right) (hinorder : InOrder left.comments)
    (offset : Nat) :
    min (left.skipBlanks offset) limit = min (right.skipBlanks offset) limit := by
  by_cases hleft : left.skipBlanks offset < limit
  · rw [halike.skipBlanks_of_lt hinorder hleft]
  · by_cases hright : right.skipBlanks offset < limit
    · rw [halike.symm.skipBlanks_of_lt (halike.comments ▸ hinorder) hright]
    · rw [Nat.min_eq_right (Nat.le_of_not_lt hleft), Nat.min_eq_right (Nat.le_of_not_lt hright)]

section Steps

variable {index : Nat} (c : Char) (walk : Walk)

theorem hasBefore (halike : AlikeUpTo limit left right) (hlt : index < limit) (distance : Nat) :
    left.hasBefore index distance = right.hasBefore index distance := by
  funext d
  rw [Code.hasBefore, Code.hasBefore, halike.chars _ (Nat.lt_of_le_of_lt (Nat.sub_le _ _) hlt)]

/-- A significant character is crossed without a look to its right. -/
theorem crossChar (halike : AlikeUpTo limit left right) (hlt : index < limit) :
    left.crossChar index c walk = right.crossChar index c walk := by
  simp only [Code.crossChar, takeChar, halike.hasBefore hlt]

theorem stepBack (halike : AlikeUpTo limit left right) (hinorder : InOrder left.comments)
    (hleft : ¬ left.DotFollows limit) (hright : ¬ right.DotFollows limit) (hlt : index < limit) :
    (left.stepBack index c walk).cut limit = (right.stepBack index c walk).cut limit := by
  rw [Code.stepBack, Code.stepBack, halike.continuesChain hinorder hleft hright hlt,
    halike.crossChar c walk hlt]
  split
  next => rfl
  next =>
    split
    next => exact congrArg (Step.stop walk) (halike.min_skipBlanks hinorder (index + 1))
    next => rfl

end Steps

/-- Two walks from one cursor take the same steps. Only a start that lies beyond the limit
may differ. -/
theorem walkBack (halike : AlikeUpTo limit left right) (hinorder : InOrder left.comments)
    (hleft : ¬ left.DotFollows limit) (hright : ¬ right.DotFollows limit) {cursor : Nat}
    (hle : cursor ≤ limit) (walk : Walk) :
    (left.walkBack walk cursor).cut limit = (right.walkBack walk cursor).cut limit := by
  fun_induction left.walkBack walk cursor with
  | case1 walk => rw [Code.walkBack]
  | case2 walk index hnone =>
      rw [halike.chars index hle] at hnone
      rw [walkBack_none hnone]
  | case3 walk index c hc comment hcomment hstart ih =>
      rw [halike.chars index hle] at hc
      rw [halike.commentHolding] at hcomment
      rw [walkBack_comment hc hcomment]
      exact ih (Nat.le_of_lt (Nat.lt_of_lt_of_le hstart hle))
  | case4 walk index c hc hnone next hstep ih =>
      have hsame := halike.stepBack c walk hinorder hleft hright hle
      rw [halike.chars index hle] at hc
      rw [halike.commentHolding] at hnone
      rw [hstep] at hsame
      rw [walkBack_step hc hnone, Step.eq_next_of_cut hsame]
      exact ih (Nat.le_of_succ_le hle)
  | case5 walk index c hc hnone last start hstep =>
      have hsame := halike.stepBack c walk hinorder hleft hright hle
      rw [halike.chars index hle] at hc
      rw [halike.commentHolding] at hnone
      rw [hstep] at hsame
      obtain ⟨startOther, hother, hstart⟩ := Step.exists_stop_of_cut hsame
      rw [walkBack_step hc hnone, hother]
      exact congrArg (Signature.mk last.anchor last.chars) hstart

end AlikeUpTo

/-- The text after an offset matters to a scan only through a dot that follows. In two
texts that are alike up to the offset and not followed by a dot, a scan gathers the same
signature, from whatever mode it starts. -/
theorem scan_eq_of_not_dotFollows {left right : Code} {offset : Nat}
    (hcomments : left.comments = right.comments) (hinorder : InOrder left.comments)
    (hsizeleft : offset ≤ left.chars.size) (hsizeright : offset ≤ right.chars.size)
    (hchars : ∀ index < offset, left.chars[index]? = right.chars[index]?)
    (hleft : ¬ left.DotFollows offset) (hright : ¬ right.DotFollows offset) (mode : Mode) :
    left.scan offset mode = right.scan offset mode := by
  have hscanned : ∀ afterBlank,
      (left.walkBack (.start afterBlank) offset).cut offset =
        (right.walkBack (.start afterBlank) offset).cut offset := fun afterBlank =>
    AlikeUpTo.walkBack ⟨hcomments, hchars⟩ hinorder hleft hright (Nat.le_refl _) _
  unfold scan
  rw [Nat.min_eq_left hsizeleft, Nat.min_eq_left hsizeright]
  cases mode with
  | normal => exact hscanned false
  | whitespace => exact hscanned true
  | comment => rfl
  | string floor => rfl

/-- A call and a remark, on whose next line an array begins. -/
def remarkBeforeArray : Code :=
  ⟨"a.b(c) #x\n[d".toList.toArray, #[⟨7, 9⟩]⟩

/-- The same call, where the remark holds a dot and the next line is another one. -/
def remarkBeforeCall : Code :=
  ⟨"a.b(c) #.\ne(f".toList.toArray, #[⟨7, 9⟩]⟩

theorem scan_eq_before_remark :
    remarkBeforeArray.comments = remarkBeforeCall.comments ∧
      InOrder remarkBeforeArray.comments ∧
      7 ≤ remarkBeforeArray.chars.size ∧ 7 ≤ remarkBeforeCall.chars.size ∧
      (∀ index < 7, remarkBeforeArray.chars[index]? = remarkBeforeCall.chars[index]?) ∧
      ¬ remarkBeforeArray.DotFollows 7 ∧ ¬ remarkBeforeCall.DotFollows 7 ∧
      remarkBeforeArray.scan 7 .normal = remarkBeforeCall.scan 7 .normal := by
  have hcomments : remarkBeforeArray.comments = remarkBeforeCall.comments := rfl
  have hinorder : InOrder remarkBeforeArray.comments := by decide
  have hsizearray : 7 ≤ remarkBeforeArray.chars.size := by decide
  have hsizecall : 7 ≤ remarkBeforeCall.chars.size := by decide
  have hchars : ∀ index < 7,
      remarkBeforeArray.chars[index]? = remarkBeforeCall.chars[index]? := by decide
  have harray : ¬ remarkBeforeArray.DotFollows 7 := by
    rw [← continuesChain_iff_dotFollows hinorder]
    decide +kernel
  have hcall : ¬ remarkBeforeCall.DotFollows 7 := by
    rw [← continuesChain_iff_dotFollows (hcomments ▸ hinorder)]
    decide +kernel
  exact ⟨hcomments, hinorder, hsizearray, hsizecall, hchars, harray, hcall,
    scan_eq_of_not_dotFollows hcomments hinorder hsizearray hsizecall hchars harray hcall .normal⟩

-- A dot that follows does matter, also where it stands behind a remark.
example : (Code.scan ⟨"a #\nc".toList.toArray, #[⟨2, 3⟩]⟩ 2 .normal).chars = [] ∧
    (Code.scan ⟨"a #\n.c".toList.toArray, #[⟨2, 3⟩]⟩ 2 .normal).chars = "a".toList := by
  decide +kernel

end Code

end Caret.Chain
