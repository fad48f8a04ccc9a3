import Caret.Proofs.Chain.Composition
import Caret.Proofs.Chain.Expressions

/-! # Chains after an operator

An operator is none of the characters that end a signature. A blank after it does, so
there the chain begins. Without the blank the walk goes on, and what it gathers left of
the operator joins the chain.
-/

namespace Caret.Chain

open Text

/-- Names that are joined by single dots. -/
structure DottedChain where
  first : Name
  others : List Name

def DottedChain.text (chain : DottedChain) : List Char :=
  chain.first.chars ++ chain.others.flatMap fun name => '.' :: name.chars

def operators : List Char :=
  ['=', '+', '-', '*', '/', '<', '>', '|', '^']

/-- A character without meaning for a walk: it is passed over and leaves no mark. -/
structure IsInert (c : Char) : Prop where
  plain : IsPlain c
  not_blank : isBlank c = false
  not_boundary : isBoundary c = false
  not_copied : isSignatureChar c = false

theorem isInert_of_mem_operators {op : Char} (hop : op ∈ operators) : IsInert op := by
  simp only [operators, List.mem_cons, List.not_mem_nil, or_false] at hop
  rcases hop with rfl | rfl | rfl | rfl | rfl | rfl | rfl | rfl | rfl <;>
    exact ⟨by decide, by decide, by decide, by decide⟩

theorem IsInert.ne_dot {c : Char} (hinert : IsInert c) : c ≠ '.' := by
  rintro rfl
  exact absurd hinert.not_copied (by decide)

theorem IsInert.ne_percent {c : Char} (hinert : IsInert c) : c ≠ '%' := by
  rintro rfl
  exact absurd hinert.not_boundary (by decide)

namespace DottedChain

variable (chain : DottedChain)

theorem copied_of_mem_text : ∀ c ∈ chain.text, isWordChar c ∨ c = '.' := by
  intro c hc
  rcases List.mem_append.mp hc with hfirst | hothers
  · exact .inl (chain.first.word c hfirst)
  · obtain ⟨name, -, hname⟩ := List.mem_flatMap.mp hothers
    rcases List.mem_cons.mp hname with rfl | hword
    · exact .inr rfl
    · exact .inl (name.word c hword)

/-- A chain begins with a letter, which is no blank and no dot. -/
theorem text_eq_cons : ∃ c rest, chain.text = c :: rest ∧ isBlank c = false ∧ c ≠ '.' := by
  obtain ⟨⟨chars, hletter, hword⟩, others⟩ := chain
  cases chars with
  | nil => contradiction
  | cons c rest =>
      refine ⟨c, _, rfl, (classes_of_copied (.inl (hword c List.mem_cons_self))).1, ?_⟩
      rintro rfl
      contradiction

/-- A walk that starts right of a chain copies all of it. -/
theorem walkBetween_text {left : List Char} (hpercent : left.getLast? ≠ some '%') :
    walkBetween (left ++ chain.text) [] (.start false) =
      walkBetween left chain.text ((Walk.start false).withTail chain.text (some left.length)) := by
  rw [walkBetween_copied chain.copied_of_mem_text rfl rfl hpercent, List.append_nil]
  obtain ⟨c, rest, htext, -⟩ := chain.text_eq_cons
  rw [htext]
  simp [Walk.copyAll, Walk.copy, Walk.withTail, Walk.start]

end DottedChain

section Crossing

variable {left right : List Char} {c : Char} {walk : Walk}

theorem walkBetween_inert (hinert : IsInert c) (hzero : walk.depth.isZero)
    (hafter : walk.afterBlank = false) :
    walkBetween (left ++ [c]) right walk = walkBetween left (c :: right) walk := by
  have htrack : walk.depth.track c = walk.depth := Depth.track_plain hinert.plain
  have hpast : walk.past c = walk := by rw [Walk.past, htrack, ← hafter]
  have houtside : (walk.depth.track c).isZero := by rwa [htrack]
  have hsubscript : c ≠ '[' := (hinert.plain .square).1
  rw [walkBetween_concat, Code.stepBack_eq_crossChar (.inr hinert.not_blank) (.inr (.inl hafter)),
    Code.crossChar_outside houtside hinert.not_boundary (.inl hsubscript),
    Code.takeChar_of_not_signatureChar hinert.not_copied, hpast]

/-- After blanks a walk stops at every character that is not a dot, unless a dot stands on
the right of the blanks. -/
theorem walkBetween_break (hblank : isBlank c = false) (hdot : c ≠ '.')
    (hleads : dotLeads right = false) (hzero : walk.depth.isZero) (hafter : walk.afterBlank) :
    walkBetween (left ++ [c]) right walk =
      walk.finish (left.length + 1 + (right.takeWhile isBlank).length) := by
  have hstop : (Code.ofText (left ++ c :: right)).stepBack left.length c walk =
      .stop walk (left.length + 1 + (right.takeWhile isBlank).length) := by
    simp [Code.stepBack, Code.continuesChain_succ, Code.skipBlanks_succ, hblank, hdot, hleads,
      hzero, hafter]
  rw [walkBetween_concat, hstop]

end Crossing

section Operator

variable (pre : List Char) {op : Char} (chain : DottedChain)

/-- A blank keeps a chain apart from what stands before it. -/
theorem endSignature_spaced (hop : IsInert op) :
    endSignature (pre ++ op :: ' ' :: chain.text) =
      ⟨some (pre.length + 2), chain.text, pre.length + 2⟩ := by
  obtain ⟨c, rest, htext, hletter, hname⟩ := chain.text_eq_cons
  have hspace : isBlank ' ' := by decide
  have hleads : dotLeads (' ' :: chain.text) = false := by
    simp [dotLeads, htext, hspace, hletter, hname]
  have hblanks : (' ' :: chain.text).takeWhile isBlank = [' '] := by
    simp [htext, hspace, hletter]
  have hsplit : pre ++ op :: ' ' :: chain.text = pre ++ [op] ++ [' '] ++ chain.text := by simp
  rw [endSignature_eq, hsplit, chain.walkBetween_text (by simp),
    walkBetween_blanks (by simp [hspace]) rfl, List.singleton_append,
    walkBetween_break hop.not_blank hop.ne_dot hleads rfl rfl, hblanks]
  simp [Walk.finish, Walk.withTail, Walk.start]

/-- Without the blank, the chain joins the signature of what stands before the operator. -/
theorem endSignature_joined (hop : IsInert op) :
    endSignature (pre ++ op :: chain.text) =
      (endSignature pre).withTail chain.text (some (pre.length + 1)) := by
  have hlast : (pre ++ [op]).getLast? ≠ some '%' := by simpa using hop.ne_percent
  have hsplit : pre ++ op :: chain.text = pre ++ [op] ++ chain.text := by simp
  have hleads : dotLeads (op :: chain.text) = dotLeads [] := by
    simp [dotLeads, hop.not_blank, hop.ne_dot]
  have hblanks : (op :: chain.text).takeWhile isBlank = [].takeWhile isBlank := by
    simp [hop.not_blank]
  rw [endSignature_eq, endSignature_eq, hsplit, chain.walkBetween_text hlast,
    walkBetween_inert hop rfl rfl, walkBetween_congr hleads hblanks, walkBetween_withTail,
    List.length_append, List.length_singleton]

/-- What an operator does to the chain after it. With a blank between them, the signature is
the chain alone, whatever stands before the operator. Without one, the signature also holds
that of the text before the operator and begins where that one does. So the two agree just
where there is no signature before the operator. -/
theorem endSignature_operator (hop : op ∈ operators) :
    endSignature (pre ++ op :: ' ' :: chain.text) =
        ⟨some (pre.length + 2), chain.text, pre.length + 2⟩ ∧
      endSignature (pre ++ op :: chain.text) =
        (endSignature pre).withTail chain.text (some (pre.length + 1)) ∧
      ((endSignature (pre ++ op :: chain.text)).chars =
          (endSignature (pre ++ op :: ' ' :: chain.text)).chars ↔
        (endSignature pre).chars = []) := by
  have hinert := isInert_of_mem_operators hop
  have hspaced := endSignature_spaced pre chain hinert
  have hjoined := endSignature_joined pre chain hinert
  refine ⟨hspaced, hjoined, ?_⟩
  rw [hspaced, hjoined]
  exact List.append_left_eq_self

/-- The right side of `x+y`. -/
def summand : DottedChain where
  first := ⟨['y'], by decide, by simp [isWordChar]⟩
  others := []

theorem endSignature_operator_sum :
    '+' ∈ operators ∧
      endSignature "x+ y".toList = ⟨some 3, summand.text, 3⟩ ∧
      endSignature "x+y".toList = (endSignature ['x']).withTail summand.text (some 2) ∧
      ((endSignature "x+y".toList).chars = (endSignature "x+ y".toList).chars ↔
        (endSignature ['x']).chars = []) :=
  have hop : '+' ∈ operators := by decide
  ⟨hop, endSignature_operator ['x'] summand hop⟩

/-- An operator does not always keep apart what stands on its sides: `x+y` gives `xy`. -/
theorem not_forall_operator_separates :
    ¬ ∀ (pre : List Char) (op : Char) (chain : DottedChain), op ∈ operators →
      (endSignature (pre ++ op :: chain.text)).chars =
          (endSignature (pre ++ op :: ' ' :: chain.text)).chars ∧
        (endSignature (pre ++ op :: chain.text)).chars = chain.text := by
  intro hall
  obtain ⟨-, hchain⟩ := hall ['x'] '+' summand (by decide)
  have hglued : (endSignature (['x'] ++ '+' :: summand.text)).chars = ['x', 'y'] := by
    decide +kernel
  rw [hglued] at hchain
  contradiction

end Operator

end Caret.Chain
