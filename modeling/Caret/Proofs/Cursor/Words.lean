import Caret.Proofs.Cursor.WordRanges

/-! # The word at a cursor

A word is a sigil, a name and a mark, each of which may be missing. The search for its start
takes one after the other off the text before the cursor, each as far as it goes. What it
finds is the longest word that the text ends in, since no character can be part of two of
them: a mark that is taken off could not have belonged to a name, nor a name to a sigil.
-/

namespace Caret.Chain

open Text

/-- What a word may begin with, behind some text. The colon of a symbol is a single one. -/
inductive IsSigil (front : List Char) : List Char → Prop
  | absent : IsSigil front []
  | dollar : IsSigil front ['$']
  | sign : IsSigil front ['@']
  | doubled : IsSigil front ['@', '@']
  | colon (single : front.getLast? ≠ some ':') : IsSigil front [':']

/-- What a word may end in. -/
inductive IsMark : List Char → Prop
  | absent : IsMark []
  | single {c : Char} (mark : c = '?' ∨ c = '!') : IsMark [c]

/-- A sigil, the characters of a name and a mark, behind some text. -/
def IsWord (front word : List Char) : Prop :=
  ∃ sigil name mark, word = sigil ++ name ++ mark ∧ IsSigil front sigil ∧
    (∀ c ∈ name, c.isAlphanum ∨ c = '_') ∧ IsMark mark

/-- Whether a text ends in a word and in no longer one. -/
structure EndsInWord (text front word : List Char) : Prop where
  append : text = front ++ word
  isWord : IsWord front word
  longest : ∀ other shorter, text = other ++ shorter → IsWord other shorter →
    shorter.length ≤ word.length

theorem isWordChar_iff {c : Char} : isWordChar c ↔ c.isAlphanum ∨ c = '_' := by
  simp [isWordChar]

theorem isMethodMark_iff {c : Char} : isMethodMark c ↔ c = '?' ∨ c = '!' := by
  simp [isMethodMark]

/-- A sigil ends in a character that is part of no name and no mark. -/
theorem IsSigil.exists_last {front sigil : List Char} (hsigil : IsSigil front sigil)
    (hne : sigil ≠ []) :
    ∃ start c, sigil = start ++ [c] ∧ isWordChar c = false ∧ isMethodMark c = false := by
  cases hsigil with
  | absent => contradiction
  | dollar => exact ⟨[], '$', rfl, by decide, by decide⟩
  | sign => exact ⟨[], '@', rfl, by decide, by decide⟩
  | doubled => exact ⟨['@'], '@', rfl, by decide, by decide⟩
  | colon => exact ⟨[], ':', rfl, by decide, by decide⟩

/-- Without its mark a word does not end in one, unless nothing is left of it. -/
theorem IsSigil.not_isMethodMark {front sigil name : List Char} (hsigil : IsSigil front sigil)
    (hname : ∀ c ∈ name, isWordChar c) (hne : sigil ++ name ≠ []) :
    ∀ c ∈ (front ++ sigil ++ name).getLast?, isMethodMark c = false := by
  intro c hc
  rcases List.eq_nil_or_concat name with rfl | ⟨start, last, rfl⟩
  · rw [List.append_nil] at hne hc
    obtain ⟨start, last, rfl, -, hlast⟩ := hsigil.exists_last hne
    rw [← List.append_assoc, List.getLast?_concat] at hc
    exact Option.some.inj hc ▸ hlast
  · rw [List.concat_eq_append] at hname hc
    rw [← List.append_assoc, List.getLast?_concat] at hc
    exact not_isMethodMark_of_isWordChar (hname c (by simp [Option.some.inj hc]))

namespace Code

variable {code : Code} {front sigil name mark : List Char} {place offset : Nat}

theorem sigilStart_succ (hsize : place ≤ code.chars.size) :
    sigilStart code.chars (place + 1) =
      match code.chars[place]? with
      | some '@' => if (code.between ⟨0, place⟩).getLast? = some '@' then place - 1 else place
      | some '$' => place
      | some ':' => if (code.between ⟨0, place⟩).getLast? = some ':' then place + 1 else place
      | _ => place + 1 := by
  rw [getLast?_between_zero hsize]
  rfl

/-- What is taken off before the name is a sigil. -/
theorem isSigil_between (hsize : place ≤ code.chars.size) :
    IsSigil (code.between ⟨0, sigilStart code.chars place⟩)
      (code.between ⟨sigilStart code.chars place, place⟩) := by
  have hempty : ∀ index, code.between ⟨index, index⟩ = [] := by simp [between]
  cases place with
  | zero => exact hempty 0 ▸ .absent
  | succ last =>
      have hlast := Nat.le_of_succ_le hsize
      rw [sigilStart_succ hlast]
      split
      next hat =>
        split
        next hdoubled =>
          obtain ⟨front, hfront⟩ := List.getLast?_eq_some_iff.mp hdoubled
          obtain ⟨rfl, -, hfirst⟩ := between_zero_eq_concat hlast hfront
          rw [Nat.add_sub_cancel, between_cons (by omega) hfirst, between_singleton hat]
          exact .doubled
        next => exact between_singleton hat ▸ .sign
      next hdollar => exact between_singleton hdollar ▸ .dollar
      next hcolon =>
        split
        next => exact hempty (last + 1) ▸ .absent
        next hsingle => exact between_singleton hcolon ▸ .colon hsingle
      next => exact hempty (last + 1) ▸ .absent

/-- No sigil that stands before the name begins further left. -/
theorem sigilStart_le_length (hsize : place ≤ code.chars.size)
    (hsplit : code.between ⟨0, place⟩ = front ++ sigil) (hsigil : IsSigil front sigil) :
    sigilStart code.chars place ≤ front.length := by
  cases hsigil with
  | absent =>
      rw [List.append_nil] at hsplit
      exact length_eq_of_between_zero hsize hsplit ▸ sigilStart_le _ _
  | dollar =>
      obtain ⟨rfl, -, hlast⟩ := between_zero_eq_concat hsize hsplit
      simp [sigilStart_succ (Nat.le_of_succ_le hsize), hlast]
  | sign =>
      obtain ⟨rfl, -, hlast⟩ := between_zero_eq_concat hsize hsplit
      rw [sigilStart_succ (Nat.le_of_succ_le hsize), hlast]
      have hle : (if (code.between ⟨0, front.length⟩).getLast? = some '@' then front.length - 1
          else front.length) ≤ front.length := by
        split <;> omega
      exact hle
  | doubled =>
      rw [← List.singleton_append, ← List.append_assoc] at hsplit
      obtain ⟨rfl, hfirst, hlast⟩ := between_zero_eq_concat hsize hsplit
      rw [sigilStart_succ (Nat.le_of_succ_le hsize), hlast, hfirst, List.getLast?_concat]
      simp
  | colon hsingle =>
      obtain ⟨rfl, hfirst, hlast⟩ := between_zero_eq_concat hsize hsplit
      rw [sigilStart_succ (Nat.le_of_succ_le hsize), hlast, hfirst]
      simp [hsingle]

/-- What is taken off at the end is a mark. -/
theorem isMark_between (code : Code) (place : Nat) :
    IsMark (code.between ⟨beforeMark code.chars place, place⟩) := by
  unfold beforeMark
  split
  next hmarked =>
    obtain ⟨last, rfl⟩ := Nat.exists_eq_succ_of_ne_zero hmarked.1
    obtain ⟨c, hc, hmark⟩ := (Option.any_eq_true _ _).mp hmarked.2
    rw [Nat.succ_sub_one] at hc ⊢
    rw [between_singleton hc]
    exact .single (isMethodMark_iff.mp hmark)
  next =>
    rw [show code.between ⟨place, place⟩ = [] by simp [between]]
    exact .absent

theorem beforeMark_eq_of_ne_nil (hsize : place ≤ code.chars.size)
    (hsplit : code.between ⟨0, place⟩ = front ++ mark) (hmark : IsMark mark) (hne : mark ≠ []) :
    beforeMark code.chars place = front.length := by
  cases hmark with
  | absent => contradiction
  | single hmark =>
      obtain ⟨rfl, -, hlast⟩ := between_zero_eq_concat hsize hsplit
      simp [beforeMark, hlast, isMethodMark_iff.mpr hmark]

/-- The mark that is taken off is no shorter than any other. -/
theorem beforeMark_le_length (hsize : place ≤ code.chars.size)
    (hsplit : code.between ⟨0, place⟩ = front ++ mark) (hmark : IsMark mark) :
    beforeMark code.chars place ≤ front.length := by
  by_cases hne : mark = []
  · rw [hne, List.append_nil] at hsplit
    exact length_eq_of_between_zero hsize hsplit ▸ beforeMark_le _ _
  · exact Nat.le_of_eq (beforeMark_eq_of_ne_nil hsize hsplit hmark hne)

/-- It is no longer either, where the text left of the mark does not end in one. -/
theorem beforeMark_eq (hsize : place ≤ code.chars.size)
    (hsplit : code.between ⟨0, place⟩ = front ++ mark) (hmark : IsMark mark)
    (hplain : ∀ c ∈ front.getLast?, isMethodMark c = false) :
    beforeMark code.chars place = front.length := by
  by_cases hne : mark = []
  · rw [hne, List.append_nil] at hsplit
    have hlast := getLast?_between_zero hsize
    rw [hsplit] at hlast
    rw [← length_eq_of_between_zero hsize hsplit, beforeMark, if_neg]
    rintro ⟨hpos, hmarked⟩
    obtain ⟨c, hc, hmark⟩ := (Option.any_eq_true _ _).mp hmarked
    rw [if_neg hpos, hc] at hlast
    simp [hplain c hlast] at hmark
  · exact beforeMark_eq_of_ne_nil hsize hsplit hmark hne

/-- The text from the start of a word on is one. -/
theorem isWord_between (hoffset : offset ≤ code.chars.size) :
    IsWord (code.between ⟨0, wordStart code.chars offset⟩)
      (code.between ⟨wordStart code.chars offset, offset⟩) := by
  rw [wordStart_eq, Nat.min_eq_left hoffset]
  have hmark := beforeMark_le code.chars offset
  generalize hmarked : beforeMark code.chars offset = marked at hmark ⊢
  have hname := runStart_le isWordChar code.chars marked
  have hsigil := sigilStart_le code.chars (runStart isWordChar code.chars marked)
  refine ⟨_, code.between ⟨runStart isWordChar code.chars marked, marked⟩,
    code.between ⟨marked, offset⟩, ?_, isSigil_between (by omega), ?_,
    hmarked ▸ isMark_between code offset⟩
  · rw [between_append _ hsigil hname, between_append _ (Nat.le_trans hsigil hname) hmark]
  · intro c hc
    obtain ⟨index, hfrom, hto, hchar⟩ := mem_between.mp hc
    have hclass := class_of_runStart_le hfrom hto
    rw [hchar, Option.any_some] at hclass
    exact isWordChar_iff.mp hclass

/-- The name that is taken off is no shorter than any other that ends at the same place. -/
theorem runStart_le_length (hsize : place ≤ code.chars.size)
    (hsplit : code.between ⟨0, place⟩ = front ++ name) (hname : ∀ c ∈ name, isWordChar c) :
    runStart isWordChar code.chars place ≤ front.length := by
  have hlength := length_eq_of_between_zero hsize hsplit
  rw [List.length_append] at hlength
  refine runStart_le_of_forall (by omega) fun index hfrom hto => ?_
  have hlt : index - front.length < name.length := by omega
  rw [getElem?_of_between_zero hsplit hto, List.getElem?_append_right hfrom,
    List.getElem?_eq_getElem hlt, Option.any_some]
  exact hname _ (List.getElem_mem hlt)

/-- It is no longer either, where the text left of the name does not end in such a character. -/
theorem runStart_eq_length (hsize : place ≤ code.chars.size) {c : Char}
    (hsplit : code.between ⟨0, place⟩ = front ++ [c] ++ name) (hname : ∀ c ∈ name, isWordChar c)
    (hlast : isWordChar c = false) :
    runStart isWordChar code.chars place = (front ++ [c]).length := by
  refine Nat.le_antisymm (runStart_le_length hsize hsplit hname) (Nat.le_of_not_lt fun hlt => ?_)
  have hlength := length_eq_of_between_zero hsize hsplit
  rw [List.length_append] at hlength
  rw [List.length_append, List.length_singleton] at hlength hlt
  have hclass := class_of_runStart_le (Nat.le_of_lt_succ hlt) (by omega)
  rw [getElem?_of_between_zero hsplit (by omega)] at hclass
  simp [hlast] at hclass

/-- No word that the text ends in begins left of the start that is found. -/
theorem wordStart_le_length (hoffset : offset ≤ code.chars.size) {word : List Char}
    (hsplit : code.between ⟨0, offset⟩ = front ++ word) (hword : IsWord front word) :
    wordStart code.chars offset ≤ front.length := by
  obtain ⟨sigil, name, mark, rfl, hsigil, hname, hmark⟩ := hword
  have hname : ∀ c ∈ name, isWordChar c := fun c hc => isWordChar_iff.mpr (hname c hc)
  rw [wordStart_eq, Nat.min_eq_left hoffset]
  by_cases hne : sigil ++ name = []
  · rw [hne, List.nil_append] at hsplit
    have hmarked := beforeMark_le_length hoffset hsplit hmark
    exact Nat.le_trans (sigilStart_le _ _) (Nat.le_trans (runStart_le _ _ _) hmarked)
  · rw [← List.append_assoc, ← List.append_assoc] at hsplit
    rw [beforeMark_eq hoffset hsplit hmark (hsigil.not_isMethodMark hname hne)]
    obtain ⟨hmarked, hsplit⟩ := between_zero_eq_left hoffset hsplit
    obtain ⟨hnamed, hbefore⟩ := between_zero_eq_left hmarked hsplit
    by_cases hempty : sigil = []
    · rw [hempty, List.append_nil] at hsplit hmarked ⊢
      exact Nat.le_trans (sigilStart_le _ _) (runStart_le_length hmarked hsplit hname)
    · -- The sigil ends in no character of a name, so just the name is taken off.
      have hstart : runStart isWordChar code.chars (front ++ sigil ++ name).length =
          (front ++ sigil).length := by
        obtain ⟨start, c, rfl, hlast, -⟩ := hsigil.exists_last hempty
        rw [← List.append_assoc] at hmarked hsplit ⊢
        exact runStart_eq_length hmarked hsplit hname hlast
      rw [hstart]
      exact sigilStart_le_length hnamed hbefore hsigil

/-- The text before an offset ends in the word that is found there. -/
theorem endsInWord (hoffset : offset ≤ code.chars.size) :
    EndsInWord (code.between ⟨0, offset⟩) (code.between ⟨0, wordStart code.chars offset⟩)
      (code.between ⟨wordStart code.chars offset, offset⟩) := by
  refine ⟨?_, isWord_between hoffset, fun other shorter hsplit hword => ?_⟩
  · rw [between_append _ (Nat.zero_le _) (wordStart_le _ _)]
  · have hlength := length_eq_of_between_zero hoffset hsplit
    rw [List.length_append] at hlength
    have hstart := wordStart_le_length hoffset hsplit hword
    rw [length_between hoffset]
    omega

end Code

end Caret.Chain

namespace Caret.Cursor

open Chain

/-- The text before a cursor ends in the word at the cursor, and in no longer word. -/
theorem endsInWord_before (cursor : Cursor) :
    EndsInWord cursor.before (cursor.before.take cursor.start) cursor.word.toList := by
  have hends : EndsInWord (cursor.buffer.code.between ⟨0, cursor.offset⟩)
      (cursor.buffer.code.between ⟨0, cursor.start⟩)
      (cursor.buffer.code.between ⟨cursor.start, cursor.offset⟩) :=
    Code.endsInWord cursor.offset_le
  have hfront : cursor.buffer.code.between ⟨0, cursor.start⟩ =
      cursor.before.take cursor.start := by
    rw [Code.between_zero, before_eq_take, List.take_take, Nat.min_eq_left cursor.start_le]
  rwa [hfront, ← toList_word, Code.between_zero, ← before_eq_take] at hends

end Caret.Cursor
