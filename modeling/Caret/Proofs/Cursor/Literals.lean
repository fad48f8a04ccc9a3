import Caret.Proofs.Buffer.Edges
import Caret.Proofs.Chain.Fronts
import Caret.Proofs.Chain.Lookahead
import Caret.Proofs.Cursor.Resolution

/-! # Receivers that are literals

A signature that begins with a dot goes on after something that is no signature. Its class
is looked up for the character right before the dot. A walk to the left passes blanks and
comments on both sides of a dot, but the lookup does not, so a literal is named only if the
dot touches it.
-/

namespace Caret.Chain.Code

/-- The last place before an offset that is neither blank nor inside a comment. -/
structure LastBefore (code : Code) (offset last : Nat) : Prop where
  lt : last < offset
  outside : ¬ code.InGap last
  gap : ∀ index, last < index → index < offset → code.InGap index

instance (code : Code) (index : Nat) : Decidable (code.InGap index) :=
  inferInstanceAs (Decidable (code.chars[index]?.any Text.isBlank ∨ code.commented index))

instance (code : Code) (offset last : Nat) : Decidable (code.LastBefore offset last) :=
  decidable_of_iff (last < offset ∧ ¬ code.InGap last ∧
      ∀ index < offset, last < index → code.InGap index)
    ⟨fun h => ⟨h.1, h.2.1, fun index hlast hoffset => h.2.2 index hoffset hlast⟩,
      fun h => ⟨h.lt, h.outside, fun index hoffset hlast => h.gap index hlast hoffset⟩⟩

end Caret.Chain.Code

namespace Caret.Cursor

open Text Syntax Chain

variable {cursor : Cursor}

/-- Where something is gathered, the cursor stands in code. -/
theorem scan_eq_of_chars_ne_nil (hchars : cursor.scan.chars ≠ []) :
    cursor.scan = cursor.buffer.code.scan cursor.offset .normal := by
  have hmode : cursor.mode = .normal := by
    rw [scan, mode] at hchars
    rw [mode]
    split at hchars
    next => exact absurd rfl hchars
    next hcomment =>
      rw [if_neg hcomment]
      split at hchars
      next => exact absurd rfl hchars
      next => rfl
  rw [scan, hmode]

theorem min_offset_size (cursor : Cursor) :
    min cursor.offset cursor.buffer.code.chars.size = cursor.offset :=
  Nat.min_eq_left cursor.offset_le

/-- A signature in code has a front. -/
theorem exists_front {c : Char} {rest : List Char} (hchars : cursor.scan.chars = c :: rest) :
    ∃ signature, Code.Front cursor.buffer.code cursor.offset signature ∧
      signature.chars = c :: rest ∧
      cursor.scan = { signature with start := min signature.start cursor.offset } := by
  have hscan := scan_eq_of_chars_ne_nil (hchars ▸ List.cons_ne_nil c rest)
  rw [Code.scan, cursor.min_offset_size] at hscan
  rw [hscan] at hchars
  refine ⟨cursor.buffer.code.walkBack (.start false) cursor.offset, ?_, hchars, hscan⟩
  rcases Code.walkBack_start_front cursor.offset with ⟨hnone, -⟩ | hfront
  · exact absurd (hchars.symm.trans hnone) (List.cons_ne_nil c rest)
  · exact hfront

/-- The literal that is looked up for a character holds it. -/
theorem exists_of_literalClassAt (hnested : cursor.buffer.tree.ProperlyNested cursor.buffer.index)
    {offset : Nat} {name : String} (hclass : cursor.literalClassAt offset = some name) :
    ∃ place, Place.Within cursor.buffer.tree place ∧ literalClass? place.tree.kind = some name ∧
      (place.tree.charSpan cursor.buffer.index).contains offset := by
  obtain ⟨place, hnode, hname⟩ := Option.bind_eq_some_iff.mp hclass
  obtain ⟨hplace, hholds⟩ := Buffer.contains_of_nodeAt hnested hnode
  exact ⟨place, hplace, hname, hholds⟩

section Dot

variable {rest : List Char} (hchars : cursor.scan.chars = '.' :: rest)
  (hplain : ¬ ['[', ']'] <+: rest)
include hchars hplain

/-- The dot at the front was copied from the anchor. -/
theorem exists_anchor_dot :
    ∃ dot, cursor.scan.anchor = some dot ∧ dot < cursor.offset ∧ cursor.charAt dot = some '.' := by
  obtain ⟨signature, hfront, hsame, hscan⟩ := exists_front hchars
  cases hfront with
  | sigil hhead hsigil =>
      obtain ⟨rfl, -⟩ := List.cons.inj (hsame.symm.trans hhead)
      rcases hsigil with hdollar | hat <;> contradiction
  | @copied first c tail hhead _ _ hanchor hlt hc =>
      obtain ⟨rfl, -⟩ := List.cons.inj (hsame.symm.trans hhead)
      exact ⟨first, by rw [hscan]; exact hanchor, hlt, hc⟩
  | @subscript bracket tail hhead =>
      obtain ⟨-, rfl⟩ := List.cons.inj (hsame.symm.trans hhead)
      exact absurd ⟨tail, rfl⟩ hplain

theorem calculatedSignature_of_dot {before : Nat}
    (hanchor : cursor.scan.anchor = some (before + 1)) :
    cursor.calculatedSignature =
      match cursor.literalClassAt before with
      | some name => name ++ ".new" ++ cursor.signature
      | none => cursor.signature := by
  have hbegins : ".[].".toList.isPrefixOf ('.' :: rest) = false := by
    rw [Bool.eq_false_iff, ne_eq, List.isPrefixOf_iff_prefix]
    rintro ⟨more, hmore⟩
    exact hplain ⟨'.' :: more, (List.cons.inj hmore).2⟩
  rw [calculatedSignature_eq_resolve, signature, hchars, resolve, calculateAfterDot, hbegins,
    hanchor]
  rfl

end Dot

theorem new_append_ne (name signature : String) : name ++ ".new" ++ signature ≠ signature := by
  intro heq
  have hlength := congrArg String.length heq
  simp only [String.length_append] at hlength
  have hnew : ".new".length = 4 := rfl
  omega

theorem new_append_inj {name other signature : String}
    (heq : name ++ ".new" ++ signature = other ++ ".new" ++ signature) : name = other := by
  rw [← String.toList_inj] at heq ⊢
  simp only [String.toList_append, List.append_assoc] at heq
  exact List.append_cancel_right heq

/-- Behind the dot at the front, a literal is named if the dot touches it. Where blanks or
comments stand between them, a class is named just if it is that of a literal around the
place right before the dot, so that in the layout between two parts of a chain the literal
is lost. -/
theorem literal_named_iff_touched {rest : List Char} (hchars : cursor.scan.chars = '.' :: rest)
    (hplain : ¬ ['[', ']'] <+: rest) :
    ∃ dot, cursor.scan.anchor = some dot ∧ cursor.charAt dot = some '.' ∧
      ∀ last name, cursor.buffer.code.LastBefore dot last →
        cursor.literalClassAt last = some name →
        (last + 1 = dot → cursor.calculatedSignature = name ++ ".new" ++ cursor.signature) ∧
        (last + 1 < dot → (cursor.calculatedSignature = name ++ ".new" ++ cursor.signature ↔
          cursor.literalClassAt (dot - 1) = some name)) ∧
        (last + 1 < dot → cursor.buffer.tree.ProperlyNested cursor.buffer.index →
          (∀ place, Place.Within cursor.buffer.tree place → (literalClass? place.tree.kind).isSome →
            ¬ (place.tree.charSpan cursor.buffer.index).contains (dot - 1)) →
          cursor.calculatedSignature = cursor.signature) := by
  obtain ⟨dot, hanchor, -, hdot⟩ := exists_anchor_dot hchars hplain
  refine ⟨dot, hanchor, hdot, fun last name hlast hname => ?_⟩
  obtain ⟨before, rfl⟩ := Nat.exists_eq_succ_of_ne_zero (Nat.ne_zero_of_lt hlast.lt)
  have hcalculated := calculatedSignature_of_dot hchars hplain hanchor
  rw [Nat.succ_sub_one, hcalculated]
  refine ⟨?_, fun _ => ?_, fun _ hnested hnone => ?_⟩
  · intro htouches
    obtain rfl := Nat.succ.inj htouches
    rw [hname]
  · cases hclass : cursor.literalClassAt before with
    | none => simp [(new_append_ne name cursor.signature).symm]
    | some other =>
        rw [Option.some.injEq]
        exact ⟨new_append_inj, fun heq => heq ▸ rfl⟩
  · cases hclass : cursor.literalClassAt before with
    | none => rfl
    | some other =>
        obtain ⟨place, hplace, hkind, hholds⟩ := exists_of_literalClassAt hnested hclass
        exact absurd hholds (hnone place hplace (by rw [hkind]; rfl))

/-- A call on a string, with the dot on the next line. -/
def calledBelow : Buffer :=
  .ofParsed "'a'\n  .b" ⟨.node ⟨"program", true, ⟨0, 8⟩, none⟩
    [.node ⟨"call", true, ⟨0, 8⟩, none⟩
      [.node ⟨"string", true, ⟨0, 3⟩, some "receiver"⟩
        [.node ⟨"\"", false, ⟨0, 1⟩, none⟩ [], .node ⟨"string_content", true, ⟨1, 2⟩, none⟩ [],
          .node ⟨"\"", false, ⟨2, 3⟩, none⟩ []],
        .node ⟨".", false, ⟨6, 7⟩, some "operator"⟩ [],
        .node ⟨"identifier", true, ⟨7, 8⟩, some "method"⟩ []]], false⟩

/-- The cursor behind the method. -/
def behindMethod : Cursor :=
  ⟨calledBelow, 8, by decide +kernel⟩

theorem literal_named_iff_touched_below :
    behindMethod.scan.chars = ['.', 'b'] ∧ ¬ ['[', ']'] <+: ['b'] ∧
      behindMethod.scan.anchor = some 6 ∧ behindMethod.buffer.code.LastBefore 6 2 ∧
      behindMethod.literalClassAt 2 = some "String" ∧
      calledBelow.tree.ProperlyNested calledBelow.index ∧
      behindMethod.calculatedSignature = behindMethod.signature := by
  have hchars : behindMethod.scan.chars = ['.', 'b'] := by decide +kernel
  have hplain : ¬ ['[', ']'] <+: ['b'] := by decide
  have hanchor : behindMethod.scan.anchor = some 6 := by decide +kernel
  have hlast : behindMethod.buffer.code.LastBefore 6 2 := by decide +kernel
  have hname : behindMethod.literalClassAt 2 = some "String" := by decide +kernel
  have hnested : calledBelow.tree.ProperlyNested calledBelow.index := by decide +kernel
  have hplaces : ∀ place ∈ calledBelow.tree.places, (literalClass? place.tree.kind).isSome →
      ¬ (place.tree.charSpan calledBelow.index).contains 5 := by decide +kernel
  refine ⟨hchars, hplain, hanchor, hlast, hname, hnested, ?_⟩
  obtain ⟨dot, hdot, -, hall⟩ := literal_named_iff_touched hchars hplain
  obtain rfl := Option.some.inj (hanchor.symm.trans hdot)
  exact (hall 2 "String" hlast hname).2.2 (by decide) hnested
    fun place hplace => hplaces place (Tree.mem_places.mpr hplace)

/-- The string above the dot is the receiver, and is not named. -/
theorem not_forall_literal_named :
    ¬ ∀ (cursor : Cursor) (rest : List Char) (dot last : Nat) (name : String),
      cursor.buffer.tree.ProperlyNested cursor.buffer.index →
      cursor.isString = false → cursor.isComment = false →
      cursor.scan.chars = '.' :: rest → ¬ ['[', ']'] <+: rest → cursor.scan.anchor = some dot →
      cursor.buffer.code.LastBefore dot last → cursor.literalClassAt last = some name →
      cursor.calculatedSignature = name ++ ".new" ++ cursor.signature := by
  intro hall
  have hnamed := hall behindMethod ['b'] 6 2 "String" (by decide +kernel) (by decide +kernel)
    (by decide +kernel) (by decide +kernel) (by decide) (by decide +kernel) (by decide +kernel)
    (by decide +kernel)
  have hlost : behindMethod.calculatedSignature ≠
      "String" ++ ".new" ++ behindMethod.signature := by decide +kernel
  exact hlost hnamed

end Caret.Cursor
