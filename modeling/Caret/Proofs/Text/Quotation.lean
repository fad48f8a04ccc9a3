import Caret.Text.Quoted

/-! # Reading quoted text

A quoted text shows by itself where it ends. Its characters are written in one of three ways,
which differ in how they begin, and none of them begins like the closing quote. So whatever
follows a quoted text, what was quoted can be read off, and no two texts are quoted alike.
-/

namespace Caret.Text

/-- Two texts that are equal agree in what stands before the first place of a mark and in what
stands behind it. -/
theorem append_cons_inj_of_not_mem {mark : Char} {front other rest tail : List Char}
    (hfront : mark ∉ front) (hother : mark ∉ other)
    (heq : front ++ mark :: rest = other ++ mark :: tail) : front = other ∧ rest = tail := by
  induction front generalizing other with
  | nil =>
      cases other with
      | nil => exact ⟨rfl, (List.cons.inj heq).2⟩
      | cons d other =>
          simp only [List.nil_append, List.cons_append, List.cons.injEq] at heq
          simp [heq.1] at hother
  | cons c front ih =>
      cases other with
      | nil =>
          simp only [List.nil_append, List.cons_append, List.cons.injEq] at heq
          simp [heq.1] at hfront
      | cons d other =>
          simp only [List.cons_append, List.cons.injEq] at heq
          simp only [List.mem_cons, not_or] at hfront hother
          obtain ⟨rfl, hrest⟩ := ih hfront.2 hother.2 heq.2
          exact ⟨by rw [heq.1], hrest⟩

/-- A way to write characters between quotes. A character can be read off whatever follows it,
and does not begin like the closing quote. -/
structure Readable (write : Char → List Char) : Prop where
  ne_quote : ∀ (c : Char) (rest tail : List Char), write c ++ rest ≠ '"' :: tail
  append_inj : ∀ (c d : Char) (rest tail : List Char), write c ++ rest = write d ++ tail →
    c = d ∧ rest = tail

namespace Readable

variable {write : Char → List Char} {left right rest tail : List Char}

/-- Written characters can be read up to the closing quote, whatever follows it. -/
theorem flatMap_append_inj (hwrite : Readable write)
    (heq : left.flatMap write ++ '"' :: rest = right.flatMap write ++ '"' :: tail) :
    left = right ∧ rest = tail := by
  induction left generalizing right with
  | nil =>
      cases right with
      | nil => simpa using heq
      | cons d right =>
          rw [List.flatMap_cons, List.append_assoc] at heq
          exact absurd heq.symm (hwrite.ne_quote d _ _)
  | cons c left ih =>
      rw [List.flatMap_cons, List.append_assoc] at heq
      cases right with
      | nil => exact absurd heq (hwrite.ne_quote c _ _)
      | cons d right =>
          rw [List.flatMap_cons, List.append_assoc] at heq
          obtain ⟨rfl, hrest⟩ := hwrite.append_inj c d _ _ heq
          obtain ⟨rfl, htail⟩ := ih hrest
          exact ⟨rfl, htail⟩

/-- What stands between quotes can be read off, whatever follows it. -/
theorem between_append_inj (hwrite : Readable write)
    (heq : '"' :: (left.flatMap write ++ ['"']) ++ rest =
      '"' :: (right.flatMap write ++ ['"']) ++ tail) : left = right ∧ rest = tail := by
  simp only [List.cons_append, List.append_assoc, List.nil_append, List.cons.injEq,
    true_and] at heq
  exact hwrite.flatMap_append_inj heq

end Readable

section HexDigits

variable {m n : Nat} {c : Char}

theorem hexDigits_of_lt (hlt : n < 16) : hexDigits n = [n.digitChar] :=
  Nat.toDigits_of_lt_base hlt

theorem hexDigits_of_le (hle : 16 ≤ n) :
    hexDigits n = hexDigits (n / 16) ++ [(n % 16).digitChar] :=
  Nat.toDigits_of_base_le (by decide) hle

theorem exists_digit_of_mem_hexDigits (hmem : c ∈ hexDigits n) :
    ∃ digit : Nat, digit.digitChar = c := by
  induction n using Nat.strongRecOn with
  | ind n ih =>
      rcases Nat.lt_or_ge n 16 with hlt | hle
      · rw [hexDigits_of_lt hlt, List.mem_singleton] at hmem
        exact ⟨n, hmem.symm⟩
      · rw [hexDigits_of_le hle, List.mem_append, List.mem_singleton] at hmem
        rcases hmem with hfront | hlast
        · exact ih (n / 16) (by omega) hfront
        · exact ⟨n % 16, hlast.symm⟩

/-- Neither the brace behind a code point nor a line feed is a digit. -/
theorem not_mem_hexDigits (hc : c = '\x7d' ∨ c = '\n') : c ∉ hexDigits n := by
  intro hmem
  obtain ⟨digit, hdigit⟩ := exists_digit_of_mem_hexDigits hmem
  rcases hc with rfl | rfl
  · exact Nat.digitChar_ne _ (by decide) hdigit
  · exact Nat.digitChar_ne _ (by decide) hdigit

theorem digitChar_inj_of_lt : ∀ m < 16, ∀ n < 16, m.digitChar = n.digitChar → m = n := by
  decide

theorem hexDigits_ne_singleton (hle : 16 ≤ n) : hexDigits n ≠ [c] := by
  intro heq
  rw [hexDigits_of_le hle, List.append_eq_singleton_iff] at heq
  rcases heq with ⟨hnil, -⟩ | ⟨-, hnil⟩
  · exact Nat.toDigits_ne_nil hnil
  · contradiction

theorem hexDigits_inj (heq : hexDigits m = hexDigits n) : m = n := by
  induction m using Nat.strongRecOn generalizing n with
  | ind m ih =>
      rcases Nat.lt_or_ge m 16 with hm | hm <;> rcases Nat.lt_or_ge n 16 with hn | hn
      · rw [hexDigits_of_lt hm, hexDigits_of_lt hn] at heq
        exact digitChar_inj_of_lt m hm n hn (List.cons.inj heq).1
      · rw [hexDigits_of_lt hm] at heq
        exact absurd heq.symm (hexDigits_ne_singleton hn)
      · rw [hexDigits_of_lt hn] at heq
        exact absurd heq (hexDigits_ne_singleton hm)
      · rw [hexDigits_of_le hm, hexDigits_of_le hn] at heq
        obtain ⟨hfront, hlast⟩ := List.append_inj' heq rfl
        have hquotient := ih (m / 16) (by omega) hfront
        have hremainder := digitChar_inj_of_lt _ (Nat.mod_lt m (by decide)) _
          (Nat.mod_lt n (by decide)) (List.cons.inj hlast).1
        omega

end HexDigits

/-- The characters that are written by a letter behind a backslash, with these letters. -/
def letters : List (Char × Char) :=
  [('\x00', '0'), ('\t', 't'), ('\n', 'n'), ('\r', 'r'), ('"', '"'), ('\\', '\\')]

/-- The ways in which a character is written between quotes. -/
inductive QuotedAs (c : Char) : List Char → Prop
  | plain (hplain : c ∉ letters.map Prod.fst) : QuotedAs c [c]
  | letter {letter : Char} (hletter : (c, letter) ∈ letters) : QuotedAs c ['\\', letter]
  | code : QuotedAs c ('\\' :: 'u' :: '\x7b' :: (hexDigits c.toNat ++ ['\x7d']))

theorem quotedAs_quoteChar (c : Char) : QuotedAs c (quoteChar c) := by
  unfold quoteChar
  split
  case h_7 hzero htab hfeed hreturn hquote hbackslash =>
    split
    next => exact .code
    next =>
      apply QuotedAs.plain
      simpa [letters] using ⟨hzero, htab, hfeed, hreturn, hquote, hbackslash⟩
  all_goals exact .letter (by decide)

theorem eq_of_letters {c d letter : Char} (hc : (c, letter) ∈ letters)
    (hd : (d, letter) ∈ letters) : c = d := by
  have hunique : ∀ first ∈ letters, ∀ second ∈ letters,
      first.2 = second.2 → first.1 = second.1 := by decide
  exact hunique _ hc _ hd rfl

theorem ne_of_letters {c letter : Char} (hletter : (c, letter) ∈ letters) :
    letter ≠ 'u' ∧ letter ≠ '\n' := by
  have hother : ∀ pair ∈ letters, pair.2 ≠ 'u' ∧ pair.2 ≠ '\n' := by decide
  exact hother _ hletter

theorem ne_of_not_letters {c d : Char} (hplain : c ∉ letters.map Prod.fst)
    (hd : d ∈ letters.map Prod.fst) : c ≠ d := by
  rintro rfl
  exact hplain hd

namespace QuotedAs

variable {c d : Char} {left right rest tail : List Char}

/-- A written character does not begin like the closing quote. -/
theorem ne_quote (hleft : QuotedAs c left) : left ++ rest ≠ '"' :: tail := by
  cases hleft with
  | plain hplain => simp [ne_of_not_letters hplain (d := '"') (by decide)]
  | letter => simp
  | code => simp

theorem newline_not_mem (hleft : QuotedAs c left) : '\n' ∉ left := by
  cases hleft with
  | plain hplain => simp [(ne_of_not_letters hplain (d := '\n') (by decide)).symm]
  | letter hletter => simp [(ne_of_letters hletter).2.symm]
  | code => simp [not_mem_hexDigits]

/-- A written character can be read off, whatever follows it. -/
theorem append_inj (hleft : QuotedAs c left) (hright : QuotedAs d right)
    (heq : left ++ rest = right ++ tail) : c = d ∧ rest = tail := by
  cases hleft with
  | plain hplain =>
      have hc : c ≠ '\\' := ne_of_not_letters hplain (by decide)
      cases hright with
      | plain => simpa using heq
      | letter => simp [hc] at heq
      | code => simp [hc] at heq
  | letter hletter =>
      cases hright with
      | plain hplain =>
          have hd : '\\' ≠ d := (ne_of_not_letters hplain (by decide)).symm
          simp [hd] at heq
      | letter hother =>
          simp only [List.cons_append, List.nil_append, List.cons.injEq, true_and] at heq
          obtain ⟨rfl, hrest⟩ := heq
          exact ⟨eq_of_letters hletter hother, hrest⟩
      | code => simp [(ne_of_letters hletter).1] at heq
  | code =>
      cases hright with
      | plain hplain =>
          have hd : '\\' ≠ d := (ne_of_not_letters hplain (by decide)).symm
          simp [hd] at heq
      | letter hletter => simp [(ne_of_letters hletter).1.symm] at heq
      | code =>
          simp only [List.cons_append, List.append_assoc, List.nil_append, List.cons.injEq,
            true_and] at heq
          obtain ⟨hdigits, hrest⟩ := append_cons_inj_of_not_mem
            (not_mem_hexDigits (.inl rfl)) (not_mem_hexDigits (.inl rfl)) heq
          exact ⟨Char.toNat_inj.mp (hexDigits_inj hdigits), hrest⟩

end QuotedAs

theorem toList_quoted (text : String) :
    (quoted text).toList = '"' :: (text.toList.flatMap quoteChar ++ ['"']) := by
  rw [quoted, String.toList_ofList]

theorem readable_quoteChar : Readable quoteChar where
  ne_quote c _ _ := (quotedAs_quoteChar c).ne_quote
  append_inj c d _ _ := (quotedAs_quoteChar c).append_inj (quotedAs_quoteChar d)

/-- A quoted text can be read off, whatever follows it. -/
theorem quoted_append_inj {left right : String} {rest tail : List Char}
    (heq : (quoted left).toList ++ rest = (quoted right).toList ++ tail) :
    left = right ∧ rest = tail := by
  rw [toList_quoted, toList_quoted] at heq
  obtain ⟨hchars, hrest⟩ := readable_quoteChar.between_append_inj heq
  exact ⟨String.toList_inj.mp hchars, hrest⟩

/-- Quoted text stands on one line. -/
theorem newline_not_mem_quoted (text : String) : '\n' ∉ (quoted text).toList := by
  have hchars : ∀ c, '\n' ∉ quoteChar c := fun c => (quotedAs_quoteChar c).newline_not_mem
  simp [toList_quoted, hchars]

end Caret.Text
