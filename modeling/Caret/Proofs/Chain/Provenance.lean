import Caret.Proofs.Chain.Comments
import Caret.Proofs.Chain.Steps

/-! # Where the characters of a signature come from

A signature consists of characters copied from the source and of inserted
subscripts. The copied characters keep their order, lie between the start of the
signature and the cursor, and only the first ones can form a sigil.
-/

namespace Caret.Chain

open Text

/-- A part of a signature: a character copied from an offset, or a subscript. -/
inductive Piece where
  | copied (source : Nat) (c : Char)
  | subscript
deriving DecidableEq, Repr

namespace Piece

def chars : Piece → List Char
  | copied _ c => [c]
  | subscript => ['.', '[', ']']

def source? : Piece → Option Nat
  | copied source _ => some source
  | subscript => none

/-- A part that may stand after the sigil: a subscript, or an ASCII letter, a digit,
a colon, a dot or an underscore. -/
def InBody : Piece → Prop
  | copied _ c => c.isAlphanum ∨ c = ':' ∨ c = '.' ∨ c = '_'
  | subscript => True

end Piece

/-- The characters that some pieces give. -/
def spell (pieces : List Piece) : List Char :=
  pieces.flatMap Piece.chars

/-- The offsets from which some pieces were copied. -/
def sources (pieces : List Piece) : List Nat :=
  pieces.filterMap Piece.source?

/-- Pieces that account for some characters and their anchor. The copied characters
stand in the source in the same order, between a start and a limit. -/
structure Traces (code : Code) (start limit : Nat) (chars : List Char) (anchor : Option Nat)
    (pieces : List Piece) : Prop where
  spelled : chars = spell pieces
  sourced : ∀ source c, .copied source c ∈ pieces →
    start ≤ source ∧ source < limit ∧ code.chars[source]? = some c
  increasing : (sources pieces).Pairwise (· < ·)
  anchored : anchor = (sources pieces).min?

theorem mem_sources {source : Nat} {pieces : List Piece} :
    source ∈ sources pieces ↔ ∃ c, .copied source c ∈ pieces := by
  simp only [sources, List.mem_filterMap]
  constructor
  · rintro ⟨piece, hmem, hsource⟩
    cases piece with
    | copied other c =>
        obtain rfl := Option.some.inj hsource
        exact ⟨c, hmem⟩
    | subscript => contradiction
  · rintro ⟨c, hmem⟩
    exact ⟨_, hmem, rfl⟩

/-- The smallest of increasing offsets is the one put in front. -/
theorem min?_cons_of_lt {source : Nat} {rest : List Nat} (hlt : ∀ other ∈ rest, source < other) :
    (source :: rest).min? = some source := by
  rw [List.min?_eq_some_iff]
  refine ⟨List.mem_cons_self, fun other hother => ?_⟩
  rcases List.mem_cons.mp hother with rfl | hrest
  · exact Nat.le_refl _
  · exact Nat.le_of_lt (hlt other hrest)

namespace Traces

variable {code : Code} {start limit : Nat} {chars : List Char} {anchor : Option Nat}
  {pieces : List Piece}

theorem nil (code : Code) (start limit : Nat) : Traces code start limit [] none [] where
  spelled := rfl
  sourced := by simp
  increasing := List.Pairwise.nil
  anchored := rfl

theorem mono (htraces : Traces code start limit chars anchor pieces) {left : Nat}
    (hleft : left ≤ start) : Traces code left limit chars anchor pieces where
  spelled := htraces.spelled
  sourced source c hmem := by
    obtain ⟨hstart, hrest⟩ := htraces.sourced source c hmem
    exact ⟨Nat.le_trans hleft hstart, hrest⟩
  increasing := htraces.increasing
  anchored := htraces.anchored

theorem subscript (htraces : Traces code start limit chars anchor pieces) :
    Traces code start limit ('.' :: '[' :: ']' :: chars) anchor (.subscript :: pieces) where
  spelled := by rw [htraces.spelled]; rfl
  sourced source c hmem := by
    rcases List.mem_cons.mp hmem with heq | hrest
    · contradiction
    · exact htraces.sourced source c hrest
  increasing := htraces.increasing
  anchored := htraces.anchored

/-- A character left of all that is accounted for may be copied. -/
theorem copied {index : Nat} (htraces : Traces code (index + 1) limit chars anchor pieces)
    (hlimit : index < limit) {c : Char} (hc : code.chars[index]? = some c) :
    Traces code index limit (c :: chars) (some index) (.copied index c :: pieces) := by
  have hlt : ∀ source ∈ sources pieces, index < source := by
    intro source hsource
    obtain ⟨d, hmem⟩ := mem_sources.mp hsource
    exact (htraces.sourced source d hmem).1
  refine ⟨?_, ?_, List.pairwise_cons.mpr ⟨hlt, htraces.increasing⟩, (min?_cons_of_lt hlt).symm⟩
  · rw [htraces.spelled]
    rfl
  · intro source d hmem
    rcases List.mem_cons.mp hmem with heq | hrest
    · obtain ⟨rfl, rfl⟩ := Piece.copied.inj heq
      exact ⟨Nat.le_refl _, hlimit, hc⟩
    · exact (htraces.mono (Nat.le_succ _)).sourced source d hrest

end Traces

/-- What a walk has gathered right of its cursor: pieces without a sigil, copied from
significant characters. -/
structure Gathered (code : Code) (limit : Nat) (walk : Walk) (cursor : Nat)
    (pieces : List Piece) : Prop where
  traces : Traces code cursor limit walk.chars walk.anchor pieces
  body : ∀ piece ∈ pieces, piece.InBody
  significant : ∀ source ∈ sources pieces, code.Significant source

/-- The account of a signature: a sigil or nothing, and a body. -/
structure Accounts (code : Code) (limit : Nat) (signature : Signature)
    (sigil body : List Piece) : Prop where
  traces : Traces code signature.start limit signature.chars signature.anchor (sigil ++ body)
  sigil : spell sigil ∈ [[], ['$'], ['@'], ['@', '@']]
  body : ∀ piece ∈ body, piece.InBody

section Steps

variable {code : Code} {limit index : Nat} {c : Char} {walk : Walk} {pieces : List Piece}

theorem inBody_of_isSignatureChar (hchar : isSignatureChar c) (hsigil : c ≠ '$' ∧ c ≠ '@') :
    (Piece.copied index c).InBody := by
  simp only [isSignatureChar, Bool.or_eq_true, decide_eq_true_eq, hsigil.1, hsigil.2,
    or_false] at hchar
  simp only [Piece.InBody]
  grind

theorem not_isBlank_of_isSignatureChar (hchar : isSignatureChar c) : isBlank c = false := by
  cases hblank : isBlank c with
  | false => rfl
  | true =>
      simp only [isBlank, Bool.or_eq_true, decide_eq_true_eq] at hblank
      rcases hblank with ((rfl | rfl) | rfl) | rfl <;> contradiction

/-- A step that goes on keeps the account of what the walk has gathered. -/
theorem Gathered.next (hgathered : Gathered code limit walk (index + 1) pieces)
    (hlimit : index < limit) (hc : code.chars[index]? = some c)
    (hnone : code.commentHolding index = none) {next : Walk}
    (hstep : Crosses code index c walk (.next next)) :
    ∃ pieces, Gathered code limit next index pieces := by
  obtain ⟨htraces, hbody, hsignificant⟩ := hgathered
  have hleft := htraces.mono (Nat.le_succ index)
  cases hstep with
  | blank => exact ⟨pieces, hleft, hbody, hsignificant⟩
  | inside => exact ⟨pieces, hleft, hbody, hsignificant⟩
  | skip => exact ⟨pieces, hleft, hbody, hsignificant⟩
  | subscript =>
      refine ⟨.subscript :: pieces, hleft.subscript, ?_, hsignificant⟩
      exact List.forall_mem_cons.mpr ⟨trivial, hbody⟩
  | copy hzero hboundary hchar hsigil =>
      refine ⟨.copied index c :: pieces, htraces.copied hlimit hc, ?_, ?_⟩
      · exact List.forall_mem_cons.mpr ⟨inBody_of_isSignatureChar hchar hsigil, hbody⟩
      · refine List.forall_mem_cons.mpr ⟨⟨?_, hnone⟩, hsignificant⟩
        simp [hc, not_isBlank_of_isSignatureChar hchar]

/-- A step that ends the walk leaves an account of the whole signature. -/
theorem Gathered.stop (hordered : code.OrderedComments)
    (hgathered : Gathered code limit walk (index + 1) pieces) (hlimit : index < limit)
    (hc : code.chars[index]? = some c) {last : Walk} {start : Nat}
    (hstep : Crosses code index c walk (.stop last start)) :
    ∃ sigil body, Accounts code limit (last.finish start) sigil body := by
  obtain ⟨htraces, hbody, hsignificant⟩ := hgathered
  have hleft := htraces.mono (Nat.le_succ index)
  cases hstep with
  | «break» =>
      refine ⟨[], pieces, ⟨?_, by decide, hbody⟩⟩
      refine ⟨htraces.spelled, fun source d hmem => ?_, htraces.increasing, htraces.anchored⟩
      obtain ⟨hindex, hbound⟩ := htraces.sourced source d hmem
      have hstands := hsignificant source (mem_sources.mpr ⟨d, hmem⟩)
      exact ⟨Code.skipBlanks_le hordered hindex hstands, hbound⟩
  | leave => exact ⟨[], pieces, ⟨htraces, by decide, hbody⟩⟩
  | boundary => exact ⟨[], pieces, ⟨htraces, by decide, hbody⟩⟩
  | percent => exact ⟨[], pieces, ⟨hleft, by decide, hbody⟩⟩
  | sigil hzero hsigil =>
      refine ⟨[.copied index c], pieces, ⟨htraces.copied hlimit hc, ?_, hbody⟩⟩
      rcases hsigil with rfl | rfl <;> simp [spell, Piece.chars]
  | doubled hzero hsigil hbefore =>
      subst hsigil
      obtain ⟨hpos, hat⟩ : 1 ≤ index ∧ code.chars[index - 1]? = some '@' := by
        simpa [Code.hasBefore] using hbefore
      obtain ⟨before, rfl⟩ := Nat.exists_eq_succ_of_ne_zero (Nat.ne_of_gt hpos)
      refine ⟨[.copied before '@', .copied (before + 1) '@'], pieces, ⟨?_, ?_, hbody⟩⟩
      · exact (htraces.copied hlimit hc).copied (Nat.lt_of_succ_lt hlimit) hat
      · simp [spell, Piece.chars]

end Steps

theorem Code.walkBack_accounts {code : Code} (hordered : code.OrderedComments) {limit : Nat}
    (afterBlank : Bool) : ∃ sigil body,
      Accounts code limit (code.walkBack (.start afterBlank) limit) sigil body := by
  refine walkBack_induction
    (fun walk cursor => cursor ≤ limit ∧ ∃ pieces, Gathered code limit walk cursor pieces)
    (fun signature => ∃ sigil body, Accounts code limit signature sigil body) ?_ ?_ ?_ ?_ ?_
  · rintro walk index comment ⟨hlimit, pieces, hgathered⟩ - hstart
    refine ⟨by omega, pieces, hgathered.traces.mono (by omega), hgathered.body, ?_⟩
    exact hgathered.significant
  · rintro walk index c next ⟨hlimit, pieces, hgathered⟩ hc hnone hstep
    exact ⟨Nat.le_of_succ_le hlimit, hgathered.next hlimit hc hnone hstep⟩
  · rintro walk index c last start ⟨hlimit, pieces, hgathered⟩ hc - hstep
    exact hgathered.stop hordered hlimit hc hstep
  · rintro walk cursor ⟨-, pieces, hgathered⟩
    exact ⟨[], pieces, hgathered.traces.mono (Nat.zero_le _), by decide, hgathered.body⟩
  · exact ⟨Nat.le_refl _, [], .nil _ _ _, by simp, by simp [sources]⟩

/-- Every scanned signature is accounted for. It is a sigil or nothing, followed by
a body of name characters, colons, dots and inserted subscripts. Without the
subscripts it is what stands in the source at increasing offsets, none of them left
of its start or right of the cursor, and its anchor is the smallest of them. -/
theorem Code.scan_accounts {code : Code} (hordered : code.OrderedComments) (offset : Nat)
    (mode : Mode) : ∃ sigil body,
      Accounts code (min offset code.chars.size) (code.scan offset mode) sigil body := by
  have hempty : ∀ start, ∃ sigil body,
      Accounts code (min offset code.chars.size) ⟨none, [], start⟩ sigil body :=
    fun start => ⟨[], [], .nil _ _ _, by decide, by simp⟩
  have hscanned : ∀ afterBlank, ∃ sigil body, Accounts code (min offset code.chars.size)
      { code.walkBack (.start afterBlank) (min offset code.chars.size) with
        start := min (code.walkBack (.start afterBlank) (min offset code.chars.size)).start
          (min offset code.chars.size) } sigil body := by
    intro afterBlank
    obtain ⟨sigil, body, htraces, hsigil, hbody⟩ := code.walkBack_accounts hordered afterBlank
    exact ⟨sigil, body, htraces.mono (Nat.min_le_left _ _), hsigil, hbody⟩
  cases mode with
  | normal => exact hscanned false
  | whitespace => exact hscanned true
  | comment => exact hempty _
  | string floor => exact hempty _

/-- A chain over a comment and a subscript, after the sigil of a variable. -/
def commentedCode : Code :=
  ⟨"@a #b\n.c[1].d".toList.toArray, #[⟨3, 5⟩]⟩

theorem Code.scan_accounts_of_comment : commentedCode.OrderedComments ∧ ∃ sigil body,
    Accounts commentedCode (min 13 commentedCode.chars.size) (commentedCode.scan 13 .normal)
      sigil body :=
  have hordered : commentedCode.OrderedComments := by decide +kernel
  ⟨hordered, Code.scan_accounts hordered 13 .normal⟩

end Caret.Chain
