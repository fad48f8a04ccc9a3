import Caret.Cursor.Calculation
import Caret.Proofs.Chain.Decomposition
import Caret.Proofs.Cursor.Exactness
import Caret.Proofs.Cursor.LiteralText

/-! # Nothing is gathered in the text of a literal

In a string no code stands left of the cursor, also where the text looks like some. What is
gathered there is empty, and the phrase at the cursor lies in the literal, or in the
interpolation, that the cursor is strictly inside.
-/

namespace Caret.Cursor

open Text Syntax Chain

/-- Whether nothing is gathered left of a cursor, so that only the rest of the word remains. -/
structure Silent (cursor : Cursor) : Prop where
  signature : cursor.signature = ""
  base : cursor.base = ""
  root : cursor.root = ""
  chain : cursor.chain = ""
  baseChain : cursor.baseChain = ""
  wholeSignature : cursor.wholeSignature = cursor.remainder
  wholeChain : cursor.wholeChain = ""
  calculatedSignature : cursor.calculatedSignature = ""
  calculatedWholeSignature : cursor.calculatedWholeSignature = cursor.remainder
  calculatedBase : cursor.calculatedBase = ""

variable {cursor : Cursor}

theorem dot_not_mem_remainder (cursor : Cursor) : '.' ∉ cursor.remainder.toList := by
  rw [remainder, slice_eq_between, String.toList_ofList]
  intro hdot
  obtain ⟨index, hfrom, hto, hc⟩ := Code.mem_between.mp hdot
  have hclass := class_of_lt_runEnd hfrom hto
  rw [show cursor.buffer.index.chars[index]? = some '.' from hc] at hclass
  contradiction

/-- Without a signature nothing can be taken from it or resolved. -/
theorem silent_of_chars (hchars : cursor.scan.chars = []) : cursor.Silent := by
  have hsignature : cursor.signature = "" := by rw [signature, hchars, String.ofList_nil]
  have hcalculated : cursor.calculatedSignature = "" := by
    unfold calculatedSignature
    rw [hchars]
  have hwhole : cursor.wholeSignature = cursor.remainder := by
    rw [wholeSignature, hsignature, String.empty_append]
  exact {
    signature := hsignature
    base := by rw [base, hchars]; rfl
    root := by rw [root, hchars]; rfl
    chain := by rw [chain, hchars]; rfl
    baseChain := by rw [baseChain, hchars]; rfl
    wholeSignature := hwhole
    wholeChain := by
      rw [wholeChain, hwhole, chain_of_not_mem cursor.dot_not_mem_remainder, String.ofList_nil]
    calculatedSignature := hcalculated
    calculatedWholeSignature := by
      rw [calculatedWholeSignature, hcalculated, String.empty_append]
    calculatedBase := by rw [calculatedBase, hcalculated]; rfl }

/-- In a string the scan gathers nothing and does not go left of the text of the literal. -/
theorem scan_of_literalAround {literal : Tree} (hliteral : cursor.literalAround = some literal) :
    cursor.scan = ⟨none, [], min (cursor.textStart literal) cursor.offset⟩ := by
  have hmode : cursor.mode = .string (cursor.textStart literal) := by
    simp [mode, isComment, isString, hliteral]
  rw [scan, hmode]
  exact congrArg (fun offset => Signature.mk none [] (min (cursor.textStart literal) offset))
    (Nat.min_eq_left cursor.offset_le)

section Nested

variable (hnested : cursor.buffer.tree.ProperlyNested cursor.buffer.index)
include hnested

theorem start_le_textStart {place : Place} (hplace : place ∈ cursor.enclosing) :
    (place.tree.charSpan cursor.buffer.index).start ≤ cursor.textStart place.tree := by
  have hwithin := Buffer.within_of_mem_enclosing hplace
  rw [textStart]
  split
  next opener rest hchildren =>
    have hopener : Place.Within cursor.buffer.tree ⟨opener, (place.tree, 0) :: place.above⟩ :=
      hwithin.child (by rw [hchildren]; rfl)
    rw [cursor.buffer.index_eq] at hnested ⊢
    have hparent : place ∈ (Place.mk opener ((place.tree, 0) :: place.above)).upward :=
      List.mem_cons_of_mem _ place.mem_upward_self
    have houter := hnested.charSpan_mono hopener hparent
    have hspan := hnested.charSpan_start_le_stop hopener
    split
    next => exact Nat.le_refl _
    next => exact Nat.le_trans houter.1 hspan
  next => exact Nat.le_refl _

/-- The phrase at a cursor in a string lies in the literal around the cursor. -/
theorem phraseSpan_inside {place : Place} (hplace : place ∈ cursor.enclosing)
    (hliteral : cursor.literalAround = some place.tree) (hinside : cursor.StandsIn place) :
    (place.tree.charSpan cursor.buffer.index).start ≤ cursor.phraseSpan.start ∧
      cursor.phraseSpan.stop ≤ (place.tree.charSpan cursor.buffer.index).stop := by
  have hstart : cursor.phraseSpan.start = min (cursor.textStart place.tree) cursor.offset := by
    rw [phraseSpan, signatureStart, scan_of_literalAround hliteral]
  rw [hstart]
  exact ⟨Nat.le_min.mpr ⟨start_le_textStart hnested hplace, Nat.le_of_lt hinside.1⟩,
    Nat.le_trans (Nat.min_le_left _ _) hinside.2⟩

/-- A cursor in a string gathers nothing. Its phrase lies in a node around it which is a literal
or an interpolation and has the cursor strictly inside. -/
theorem silent_of_isString (hstring : cursor.isString) :
    cursor.Silent ∧ cursor.buffer.index.Holds cursor.phraseSpan cursor.phrase ∧
      ∃ place ∈ cursor.enclosing,
        (isLiteralText place.tree.kind ∨ place.tree.kind = "interpolation") ∧
        cursor.StandsIn place ∧
        (place.tree.charSpan cursor.buffer.index).start ≤ cursor.phraseSpan.start ∧
        cursor.phraseSpan.stop ≤ (place.tree.charSpan cursor.buffer.index).stop := by
  obtain ⟨place, htext, hliteral, hinside⟩ := exists_literalAround hstring
  have hplace := mem_enclosing_of_mem_textAround htext
  refine ⟨silent_of_chars (by rw [scan_of_literalAround hliteral]),
    Index.holds_slice cursor.phraseSpan_start_le_stop (Nat.min_le_right _ _),
    place, hplace, ?_, hinside, phraseSpan_inside hnested hplace hliteral hinside⟩
  exact (isText_of_mem_textAround htext).imp_right fun houtside =>
    of_decide_eq_true (Bool.and_eq_true_iff.mp houtside).1

end Nested

/-- The program `foo.bar("hello world")`. -/
def quotedTree : Tree :=
  .node ⟨"program", true, ⟨0, 22⟩, none⟩
    [.node ⟨"call", true, ⟨0, 22⟩, none⟩
      [.node ⟨"identifier", true, ⟨0, 3⟩, some "receiver"⟩ [],
        .node ⟨".", false, ⟨3, 4⟩, none⟩ [],
        .node ⟨"identifier", true, ⟨4, 7⟩, some "method"⟩ [],
        .node ⟨"argument_list", true, ⟨7, 22⟩, some "arguments"⟩
          [.node ⟨"(", false, ⟨7, 8⟩, none⟩ [],
            .node ⟨"string", true, ⟨8, 21⟩, none⟩
              [.node ⟨"\"", false, ⟨8, 9⟩, none⟩ [],
                .node ⟨"string_content", true, ⟨9, 20⟩, none⟩ [],
                .node ⟨"\"", false, ⟨20, 21⟩, none⟩ []],
            .node ⟨")", false, ⟨21, 22⟩, none⟩ []]]]

/-- In the second word of the string. -/
def withinQuotes : Cursor where
  buffer := .ofParsed "foo.bar(\"hello world\")" ⟨quotedTree, false⟩
  offset := 18
  offset_le := by decide +kernel

theorem silent_of_isString_withinQuotes :
    withinQuotes.buffer.tree.ProperlyNested withinQuotes.buffer.index ∧ withinQuotes.isString ∧
      withinQuotes.Silent ∧ withinQuotes.phrase = "hello worl" ∧
      ∃ place ∈ withinQuotes.enclosing, withinQuotes.StandsIn place ∧
        (place.tree.charSpan withinQuotes.buffer.index).start ≤ 9 := by
  have hnested : withinQuotes.buffer.tree.ProperlyNested withinQuotes.buffer.index := by
    decide +kernel
  have hstring : withinQuotes.isString := by decide +kernel
  have hphrase : withinQuotes.phraseSpan = ⟨9, 19⟩ := by decide +kernel
  obtain ⟨hsilent, -, place, hplace, -, hinside, hstart, -⟩ := silent_of_isString hnested hstring
  rw [hphrase] at hstart
  exact ⟨hnested, hstring, hsilent, by decide +kernel, place, hplace, hinside, hstart⟩

end Caret.Cursor
