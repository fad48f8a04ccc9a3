import Caret.Proofs.Cursor.Arguments
import Caret.Proofs.Cursor.WholeWords
import Caret.Proofs.Text.Positions

/-! # The text in the range of a word

The range of a word holds the word and nothing else, unless a single colon stands before the
word that is not the first character of the buffer. Such a colon is in the range but not in
the word. It is never that of a symbol, which the word begins with itself, so that a word
like this begins with the sigil of a variable.
-/

namespace Caret.Text.Index

/-- The text between the ends of a region. -/
def textIn (index : Index) (region : Region) : Except Failure String := do
  let start ← index.offsetOf region.start
  let stop ← index.offsetOf region.stop
  return index.slice ⟨start, stop⟩

theorem textIn_lineColumn {text : String} {start stop : Nat}
    (hstart : start ≤ (ofString text).size) (hstop : stop ≤ (ofString text).size) :
    (ofString text).textIn ⟨(ofString text).lineColumn start, (ofString text).lineColumn stop⟩ =
      .ok ((ofString text).slice ⟨start, stop⟩) := by
  rw [textIn, offsetOf_lineColumn hstart, offsetOf_lineColumn hstop]
  rfl

end Caret.Text.Index

namespace Caret.Chain

open Text

/-- Whether one colon stands before an offset, with another character before it. -/
def ColonBefore (chars : Array Char) (offset : Nat) : Prop :=
  1 < offset ∧ chars[offset - 1]? = some ':' ∧ chars[offset - 2]? ≠ some ':'

instance (chars : Array Char) (offset : Nat) : Decidable (ColonBefore chars offset) :=
  inferInstanceAs (Decidable (_ ∧ _))

theorem sigilStart_add_two (chars : Array Char) (place : Nat) :
    sigilStart chars (place + 2) =
      match chars[place + 1]? with
      | some '@' => if chars[place]? = some '@' then place else place + 1
      | some '$' => place + 1
      | some ':' => if chars[place]? = some ':' then place + 2 else place + 1
      | _ => place + 2 := by
  rw [sigilStart, if_neg (Nat.succ_ne_zero place)]
  rfl

/-- A word takes the colon before its name for a sigil. So it has a colon left before it only
if it begins with another sigil. -/
theorem exists_sigil_of_colonBefore {chars : Array Char} {name : Nat}
    (hcolon : ColonBefore chars (sigilStart chars name)) : sigilStart chars name < name ∧
      ∃ sigil, (sigil = '@' ∨ sigil = '$') ∧ chars[sigilStart chars name]? = some sigil := by
  have hlt := Nat.lt_of_lt_of_le hcolon.1 (sigilStart_le chars name)
  obtain ⟨place, rfl⟩ : ∃ place, name = place + 2 := ⟨name - 2, by omega⟩
  revert hcolon
  rw [sigilStart_add_two]
  split
  next hat =>
    intro _
    split
    next hdoubled => exact ⟨by omega, '@', .inl rfl, hdoubled⟩
    next => exact ⟨Nat.lt_succ_self _, '@', .inl rfl, hat⟩
  next hdollar => exact fun _ => ⟨Nat.lt_succ_self _, '$', .inr rfl, hdollar⟩
  next hcolon =>
    split
    next hdoubled => exact fun hfound => absurd hdoubled hfound.2.2
    next hsingle => exact fun hfound => absurd hfound.2.1 hsingle
  next hnone => exact fun hfound => absurd hfound.2.1 hnone

namespace Code

variable {code : Code} {start : Nat}

/-- What stands before an offset ends in one colon and some other character. -/
theorem exists_between_eq_iff (hstart : start ≤ code.chars.size) :
    (∃ front c, c ≠ ':' ∧ code.between ⟨0, start⟩ = front ++ [c, ':']) ↔
      ColonBefore code.chars start := by
  constructor
  · rintro ⟨front, c, hne, hbetween⟩
    rw [← List.singleton_append, ← List.append_assoc] at hbetween
    obtain ⟨rfl, hfront, hcolon⟩ := between_zero_eq_concat hstart hbetween
    obtain ⟨hlength, -, hc⟩ := between_zero_eq_concat (Nat.le_of_succ_le hstart) hfront
    rw [hlength] at hcolon ⊢
    exact ⟨by omega, hcolon, by simpa [hc] using hne⟩
  · rintro ⟨hlt, hcolon, hne⟩
    obtain ⟨place, rfl⟩ : ∃ place, start = place + 2 := ⟨start - 2, by omega⟩
    have hlast : code.chars[place + 1]? = some ':' := hcolon
    have hc : code.chars[place]? = some code.chars[place] := Array.getElem?_eq_getElem _
    refine ⟨code.between ⟨0, place⟩, code.chars[place], ?_, ?_⟩
    · intro heq
      exact hne (hc.trans (congrArg some heq))
    · rw [between_succ (Nat.zero_le _) hlast, between_succ (Nat.zero_le _) hc, List.append_assoc]
      rfl

end Code

end Caret.Chain

namespace Caret.Cursor

open Text Chain

/-- Whether one colon stands before the word at a cursor, with another character before it. -/
def AfterColon (cursor : Cursor) : Prop :=
  ∃ front c, c ≠ ':' ∧ cursor.before = front ++ [c, ':'] ++ cursor.word.toList

variable {cursor : Cursor} {stop : Nat}

/-- Where the word at a cursor starts. -/
def start (cursor : Cursor) : Nat :=
  wordStart cursor.buffer.index.chars cursor.offset

theorem start_le (cursor : Cursor) : cursor.start ≤ cursor.offset :=
  wordStart_le _ _

theorem toList_word (cursor : Cursor) :
    cursor.word.toList = cursor.buffer.code.between ⟨cursor.start, cursor.offset⟩ := by
  rw [word, slice_eq_between, String.toList_ofList]
  rfl

theorem afterColon_iff :
    cursor.AfterColon ↔ ColonBefore cursor.buffer.index.chars cursor.start := by
  have hsize : cursor.start ≤ cursor.buffer.code.chars.size :=
    Nat.le_trans cursor.start_le cursor.offset_le
  have hbefore : cursor.before =
      cursor.buffer.code.between ⟨0, cursor.start⟩ ++ cursor.word.toList := by
    rw [toList_word, Code.between_append _ (Nat.zero_le _) cursor.start_le, before_eq_take,
      Code.between_zero]
  rw [AfterColon, hbefore]
  simp only [List.append_cancel_right_eq]
  exact Code.exists_between_eq_iff hsize

instance (cursor : Cursor) : Decidable cursor.AfterColon :=
  decidable_of_iff _ afterColon_iff.symm

theorem rangeStart_of_afterColon (hcolon : cursor.AfterColon) :
    cursor.rangeStart = cursor.start - 1 :=
  if_pos (afterColon_iff.mp hcolon)

theorem rangeStart_of_not_afterColon (hapart : ¬ cursor.AfterColon) :
    cursor.rangeStart = cursor.start :=
  if_neg (mt afterColon_iff.mpr hapart)

theorem rangeStart_le (cursor : Cursor) : cursor.rangeStart ≤ cursor.offset :=
  Nat.le_trans (colonStart_le _ _) cursor.start_le

/-- The range up to an offset behind the cursor reaches there from the start of the word, or
from the colon before it. -/
theorem textIn_rangeUpTo (hfrom : cursor.offset ≤ stop) (hto : stop ≤ cursor.buffer.size) :
    cursor.buffer.index.textIn (cursor.rangeUpTo stop) =
      .ok (cursor.buffer.index.slice ⟨cursor.rangeStart, stop⟩) := by
  have hstart := Nat.le_trans cursor.rangeStart_le hfrom
  rw [rangeUpTo, Nat.max_eq_left hstart, positionOf_eq_lineColumn (Nat.le_trans hstart hto),
    positionOf_eq_lineColumn hto]
  rw [Buffer.size] at hto
  rw [cursor.buffer.index_eq] at hto ⊢
  exact Index.textIn_lineColumn (Nat.le_trans hstart hto) hto

/-- The text of the range up to an offset behind the cursor is the word and what stands
between cursor and offset, with a colon in front if there is one before the word. -/
theorem textIn_rangeUpTo_eq (hfrom : cursor.offset ≤ stop) (hto : stop ≤ cursor.buffer.size) :
    (¬ cursor.AfterColon → cursor.buffer.index.textIn (cursor.rangeUpTo stop) =
      .ok (cursor.word ++ cursor.buffer.index.slice ⟨cursor.offset, stop⟩)) ∧
    (cursor.AfterColon → cursor.buffer.index.textIn (cursor.rangeUpTo stop) =
      .ok (":" ++ (cursor.word ++ cursor.buffer.index.slice ⟨cursor.offset, stop⟩))) := by
  have hword : cursor.word ++ cursor.buffer.index.slice ⟨cursor.offset, stop⟩ =
      String.ofList (cursor.buffer.code.between ⟨cursor.start, stop⟩) := by
    rw [word, slice_eq_between, slice_eq_between, ← String.ofList_append]
    exact congrArg String.ofList (Code.between_append _ cursor.start_le hfrom)
  rw [textIn_rangeUpTo hfrom hto, hword, slice_eq_between]
  constructor
  · intro hapart
    rw [rangeStart_of_not_afterColon hapart]
  · intro hafter
    obtain ⟨hpos, hcolon, -⟩ := afterColon_iff.mp hafter
    have hlt : cursor.start - 1 < stop := by
      have hle := cursor.start_le
      omega
    rw [rangeStart_of_afterColon hafter, Code.between_cons hlt hcolon,
      Nat.sub_add_cancel (Nat.le_of_lt hpos), ← List.singleton_append, String.ofList_append]

/-- A word behind a colon of its own begins with the sigil of a variable. -/
theorem exists_sigil_of_afterColon (hafter : cursor.AfterColon) :
    ∃ sigil rest, (sigil = '@' ∨ sigil = '$') ∧ cursor.word.toList = sigil :: rest := by
  have hbefore := afterColon_iff.mp hafter
  rw [start, wordStart_eq] at hbefore
  obtain ⟨hname, sigil, hsigil, hc⟩ := exists_sigil_of_colonBefore hbefore
  rw [← wordStart_eq] at hname hc
  have hlt : cursor.start < cursor.offset := Nat.lt_of_lt_of_le hname (nameStart_le _ _)
  have hword := cursor.toList_word
  rw [Code.between_cons hlt hc] at hword
  exact ⟨sigil, _, hsigil, hword⟩

/-- The range of a word holds the word, and the range of a whole word the whole word, unless
a single colon stands before the word and some other character before the colon. Then the
range has the colon too, and the word begins with the sigil of a variable. -/
theorem textIn_wordRange (cursor : Cursor) :
    (¬ cursor.AfterColon →
      cursor.buffer.index.textIn cursor.wordRange = .ok cursor.word ∧
      cursor.buffer.index.textIn cursor.wholeWordRange = .ok cursor.wholeWord) ∧
    (cursor.AfterColon →
      cursor.buffer.index.textIn cursor.wordRange = .ok (":" ++ cursor.word) ∧
      cursor.buffer.index.textIn cursor.wholeWordRange = .ok (":" ++ cursor.wholeWord) ∧
      ∃ sigil rest, (sigil = '@' ∨ sigil = '$') ∧ cursor.word.toList = sigil :: rest) := by
  have hstop : wordEnd cursor.buffer.index.chars cursor.offset ≤ cursor.buffer.size :=
    runEnd_le_size cursor.offset_le
  have hempty : cursor.buffer.index.slice ⟨cursor.offset, cursor.offset⟩ = "" := by
    simp [Index.slice]
  obtain ⟨hword, hcolonWord⟩ := textIn_rangeUpTo_eq (Nat.le_refl cursor.offset) cursor.offset_le
  obtain ⟨hwhole, hcolonWhole⟩ := textIn_rangeUpTo_eq (le_runEnd _ _ _) hstop
  rw [hempty, String.append_empty] at hword hcolonWord
  exact ⟨fun hapart => ⟨hword hapart, hwhole hapart⟩, fun hafter =>
    ⟨hcolonWord hafter, hcolonWhole hafter, exists_sigil_of_afterColon hafter⟩⟩

/-- A cursor in a symbol that is written like an instance variable. -/
def withinSymbol : Cursor where
  buffer := .ofParsed "x = :@ivar" .nothing
  offset := 8
  offset_le := by decide +kernel

/-- The range of a word does not always hold the word: that of `@iv` in `x = :@ivar` has the
colon before it. -/
theorem not_forall_textIn_wordRange :
    ¬ ∀ cursor : Cursor, cursor.buffer.index.textIn cursor.wordRange = .ok cursor.word ∧
      cursor.buffer.index.textIn cursor.wholeWordRange = .ok cursor.wholeWord := by
  intro hall
  have hrange : withinSymbol.buffer.index.textIn withinSymbol.wordRange = .ok ":@iv" := by
    decide +kernel
  have hne : withinSymbol.word ≠ ":@iv" := by decide +kernel
  exact hne (Except.ok.inj ((hall withinSymbol).1.symm.trans hrange))

end Caret.Cursor
