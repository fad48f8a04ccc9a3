import Caret.Proofs.Text.Decimals
import Caret.Proofs.Text.Quotation
import Caret.Report.Inspection

/-! # Reading a report

Nothing is lost in the text of a report. Its rows have known keys and stand on one line each, so
that their values can be told apart, and every value shows what it was written for: texts are
quoted, while the marks for a missing text are not. The local variables follow behind the rows.
Their names are not quoted, and end at the first blank.
-/

namespace Caret.Report

open Text

/-- A text without line feeds. -/
def OneLine (text : String) : Prop :=
  '\n' ∉ text.toList

section Values

theorem toString_inj {m n : Nat} : toString m = toString n ↔ m = n :=
  ⟨fun heq => printed_inj (congrArg String.toList heq), congrArg _⟩

theorem oneLine_toString (n : Nat) : OneLine (toString n) :=
  not_mem_printed (by decide) n

namespace Location

theorem toList_text (location : Location) :
    location.text.toList = printed location.line ++ ':' :: printed location.column := by
  simp [text, printed]

/-- A location is written in digits and a colon. -/
theorem not_mem_text {c : Char} (hdigit : c.isDigit = false) (hcolon : c ≠ ':')
    (location : Location) : c ∉ location.text.toList := by
  simp [toList_text, not_mem_printed hdigit, hcolon]

theorem text_inj {left right : Location} : left.text = right.text ↔ left = right := by
  constructor
  · intro heq
    have hchars := congrArg String.toList heq
    rw [toList_text, toList_text] at hchars
    obtain ⟨hline, hcolumn⟩ := append_cons_inj_of_not_mem
      (not_mem_printed (by decide) _) (not_mem_printed (by decide) _) hchars
    cases left
    cases right
    rw [Location.mk.injEq]
    exact ⟨printed_inj hcolumn, printed_inj hline⟩
  · exact congrArg text

theorem oneLine_text (location : Location) : OneLine location.text :=
  not_mem_text (by decide) (by decide) location

end Location

namespace LocationRange

theorem toList_text (range : LocationRange) :
    range.text.toList = range.start.text.toList ++ '-' :: range.stop.text.toList := by
  simp [text]

theorem text_inj {left right : LocationRange} : left.text = right.text ↔ left = right := by
  constructor
  · intro heq
    have hchars := congrArg String.toList heq
    rw [toList_text, toList_text] at hchars
    obtain ⟨hstart, hstop⟩ := append_cons_inj_of_not_mem
      (Location.not_mem_text (by decide) (by decide) _)
      (Location.not_mem_text (by decide) (by decide) _) hchars
    cases left
    cases right
    rw [LocationRange.mk.injEq]
    exact ⟨Location.text_inj.mp (String.toList_inj.mp hstart),
      Location.text_inj.mp (String.toList_inj.mp hstop)⟩
  · exact congrArg text

theorem oneLine_text (range : LocationRange) : OneLine range.text := by
  have hstart := range.start.oneLine_text
  have hstop := range.stop.oneLine_text
  rw [OneLine] at *
  simp [toList_text, hstart, hstop]

end LocationRange

theorem quoted_inj {left right : String} : quoted left = quoted right ↔ left = right := by
  constructor
  · intro heq
    have hchars : (quoted left).toList ++ [] = (quoted right).toList ++ [] := by rw [heq]
    exact (quoted_append_inj hchars).1
  · exact congrArg quoted

theorem oneLine_quoted (text : String) : OneLine (quoted text) :=
  newline_not_mem_quoted text

/-- A text that may be missing, quoted if it is there and else replaced by some mark that is no
quote, can be read off whatever follows it. -/
theorem getD_quoted_append_inj {mark : String} {c : Char} (hmark : mark.toList = [c])
    (hc : c ≠ '"') {left right : Option String} {rest tail : List Char}
    (heq : ((left.map quoted).getD mark).toList ++ rest =
      ((right.map quoted).getD mark).toList ++ tail) : left = right ∧ rest = tail := by
  cases left with
  | none =>
      cases right with
      | none => simpa [hmark] using heq
      | some text => simp [hmark, toList_quoted, hc] at heq
  | some text =>
      cases right with
      | none => simp [hmark, toList_quoted, hc.symm] at heq
      | some other =>
          obtain ⟨rfl, hrest⟩ := quoted_append_inj heq
          exact ⟨rfl, hrest⟩

theorem scope_name_inj {left right : Symbols.Scope} : left.name = right.name ↔ left = right := by
  cases left <;> cases right <;> decide

theorem oneLine_scope_name (scope : Symbols.Scope) : OneLine scope.name := by
  cases scope <;> simp [OneLine, Symbols.Scope.name]

theorem Flag.name_inj {left right : Flag} : left.name = right.name ↔ left = right := by
  cases left <;> cases right <;> decide

end Values

section Flags

/-- The words that stand for some flags. A dash stands for none. -/
def words (flags : List Flag) : List String :=
  if flags.isEmpty then ["-"] else flags.map Flag.name

/-- The value of the row of the flags. -/
def flagsText (flags : List Flag) : String :=
  if flags.isEmpty then "-" else " ".intercalate (flags.map Flag.name)

theorem toList_flagsText (flags : List Flag) :
    (flagsText flags).toList = [' '].intercalate ((words flags).map String.toList) := by
  rw [flagsText, words]
  split
  next => rfl
  next => rw [String.toList_intercalate]; rfl

theorem words_ne_nil (flags : List Flag) : words flags ≠ [] := by
  cases flags <;> simp [words]

/-- A word has neither blanks nor line feeds. -/
theorem not_mem_of_mem_words {c : Char} (hc : c = ' ' ∨ c = '\n') {flags : List Flag}
    {word : String} (hword : word ∈ words flags) : c ∉ word.toList := by
  rw [words] at hword
  split at hword
  next =>
    rw [List.mem_singleton.mp hword]
    rcases hc with rfl | rfl <;> decide
  next =>
    obtain ⟨flag, -, rfl⟩ := List.mem_map.mp hword
    rcases hc with rfl | rfl <;> cases flag <;> decide

theorem words_inj {left right : List Flag} (heq : words left = words right) : left = right := by
  have hdash : ∀ flags : List Flag, ["-"] ≠ flags.map Flag.name := by
    intro flags hflags
    obtain ⟨flag, -, hflag⟩ := List.mem_map.mp (hflags ▸ List.mem_singleton_self "-")
    cases flag <;> contradiction
  cases left with
  | nil =>
      cases right with
      | nil => rfl
      | cons flag right => exact absurd heq (hdash _)
  | cons flag left =>
      cases right with
      | nil => exact absurd heq.symm (hdash _)
      | cons other right =>
          exact List.map_inj_right (fun _ _ => Flag.name_inj.mp) |>.mp heq

theorem splitOn_flagsText (flags : List Flag) :
    (flagsText flags).toList.splitOn ' ' = (words flags).map String.toList := by
  rw [toList_flagsText]
  apply List.splitOn_intercalate
  · intro word hword
    obtain ⟨word, hmem, rfl⟩ := List.mem_map.mp hword
    exact not_mem_of_mem_words (.inl rfl) hmem
  · simpa using words_ne_nil flags

theorem flagsText_inj {left right : List Flag} :
    flagsText left = flagsText right ↔ left = right := by
  constructor
  · intro heq
    have hwords := congrArg (·.toList.splitOn ' ') heq
    simp only [splitOn_flagsText] at hwords
    exact words_inj ((List.map_inj_right fun _ _ => String.toList_inj.mp).mp hwords)
  · exact congrArg flagsText

theorem not_mem_intercalate {c : Char} {between : List Char} (hbetween : c ∉ between)
    {pieces : List (List Char)} (hpieces : ∀ piece ∈ pieces, c ∉ piece) :
    c ∉ between.intercalate pieces := by
  induction pieces with
  | nil => simp
  | cons piece pieces ih =>
      cases pieces with
      | nil => simpa using hpieces
      | cons next pieces =>
          rw [List.intercalate_cons_cons]
          simp only [List.forall_mem_cons] at hpieces ih
          simp [hpieces.1, hbetween, ih hpieces.2]

theorem oneLine_flagsText (flags : List Flag) : OneLine (flagsText flags) := by
  rw [OneLine, toList_flagsText]
  apply not_mem_intercalate (by decide)
  intro word hword
  obtain ⟨word, hmem, rfl⟩ := List.mem_map.mp hword
  exact not_mem_of_mem_words (.inr rfl) hmem

end Flags

namespace LocalReport

/-- The text of a local variable up to its closing line feed. -/
theorem toList_text (report : LocalReport) :
    report.text.toList = ' ' :: ' ' :: (report.name.toList ++ ' ' :: '=' :: ' ' ::
      (((report.signature.map quoted).getD "?").toList ++ ' ' :: ' ' :: '(' ::
        (report.location.text.toList ++ [')', '\n']))) := by
  simp [text]

/-- The text of a local variable can be read off, whatever follows it, if its name has no
blank. -/
theorem text_append_inj {left right : LocalReport} (hleft : ' ' ∉ left.name.toList)
    (hright : ' ' ∉ right.name.toList) {rest tail : List Char}
    (heq : left.text.toList ++ rest = right.text.toList ++ tail) :
    left = right ∧ rest = tail := by
  simp only [toList_text, List.cons_append, List.append_assoc, List.cons.injEq, true_and] at heq
  obtain ⟨hname, heq⟩ := append_cons_inj_of_not_mem hleft hright heq
  simp only [List.cons.injEq, true_and] at heq
  obtain ⟨hsignature, heq⟩ := getD_quoted_append_inj rfl (c := '?') (by decide) heq
  simp only [List.cons.injEq, true_and] at heq
  obtain ⟨hlocation, heq⟩ := append_cons_inj_of_not_mem
    (Location.not_mem_text (by decide) (by decide) _)
    (Location.not_mem_text (by decide) (by decide) _) heq
  refine ⟨?_, (List.cons.inj heq).2⟩
  cases left
  cases right
  rw [LocalReport.mk.injEq]
  exact ⟨Location.text_inj.mp (String.toList_inj.mp hlocation), String.toList_inj.mp hname,
    hsignature⟩

/-- From the text of local variables all of them can be read off. -/
theorem texts_inj {left right : List LocalReport}
    (hleft : ∀ report ∈ left, ' ' ∉ report.name.toList)
    (hright : ∀ report ∈ right, ' ' ∉ report.name.toList)
    (heq : left.flatMap (·.text.toList) = right.flatMap (·.text.toList)) : left = right := by
  induction left generalizing right with
  | nil =>
      cases right with
      | nil => rfl
      | cons other right => simp [toList_text] at heq
  | cons report left ih =>
      cases right with
      | nil => simp [toList_text] at heq
      | cons other right =>
          simp only [List.forall_mem_cons] at hleft hright
          rw [List.flatMap_cons, List.flatMap_cons] at heq
          obtain ⟨rfl, hrest⟩ := text_append_inj hleft.1 hright.1 heq
          rw [ih hleft.2 hright.2 hrest]

-- A name with a blank in it may look like two variables.
example : (LocalReport.mk ⟨1, 3⟩ "x = ?  (1:1)\n  y" none).text =
    (LocalReport.mk ⟨1, 1⟩ "x" none).text ++ (LocalReport.mk ⟨1, 3⟩ "y" none).text := by
  decide +kernel

end LocalReport

attribute [ext] Inspection

namespace Inspection

/-- The text of a row can be read off, whatever follows it, if its key is known. -/
theorem rowText_append_inj {width : Nat} {key left right : String} (hleft : OneLine left)
    (hright : OneLine right) {rest tail : List Char}
    (heq : (rowText width (key, left)).toList ++ rest =
      (rowText width (key, right)).toList ++ tail) : left = right ∧ rest = tail := by
  simp only [rowText, String.toList_append, List.append_assoc, List.append_cancel_left_eq] at heq
  obtain ⟨hvalue, hrest⟩ := append_cons_inj_of_not_mem hleft hright heq
  exact ⟨String.toList_inj.mp hvalue, hrest⟩

/-- From rows whose keys are known their values can be read off, whatever follows them. -/
theorem rowTexts_append_inj {width : Nat} {left right : List (String × String)}
    (hkeys : left.map Prod.fst = right.map Prod.fst) (hleft : ∀ row ∈ left, OneLine row.2)
    (hright : ∀ row ∈ right, OneLine row.2) {rest tail : List Char}
    (heq : left.flatMap (fun row => (rowText width row).toList) ++ rest =
      right.flatMap (fun row => (rowText width row).toList) ++ tail) :
    left = right ∧ rest = tail := by
  induction left generalizing right with
  | nil =>
      cases right with
      | nil => exact ⟨rfl, heq⟩
      | cons other right => simp at hkeys
  | cons row left ih =>
      cases right with
      | nil => simp at hkeys
      | cons other right =>
          obtain ⟨key, value⟩ := row
          obtain ⟨otherKey, otherValue⟩ := other
          simp only [List.forall_mem_cons, List.map_cons, List.cons.injEq] at hleft hright hkeys
          obtain ⟨rfl, hkeys⟩ := hkeys
          rw [List.flatMap_cons, List.flatMap_cons, List.append_assoc, List.append_assoc] at heq
          obtain ⟨rfl, hrest⟩ := rowText_append_inj hleft.1 hright.1 heq
          obtain ⟨rfl, htail⟩ := ih hkeys hleft.2 hright.2 hrest
          exact ⟨rfl, htail⟩

theorem oneLine_quotedOrDash (text : Option String) : OneLine (quotedOrDash text) := by
  cases text with
  | none => simp [OneLine, quotedOrDash]
  | some text => exact oneLine_quoted text

theorem quotedOrDash_inj {left right : Option String} :
    quotedOrDash left = quotedOrDash right ↔ left = right := by
  constructor
  · intro heq
    exact (getD_quoted_append_inj rfl (c := '-') (by decide)
      (congrArg (·.toList ++ []) heq)).1
  · exact congrArg quotedOrDash

theorem oneLine_rows (report : Inspection) : ∀ row ∈ report.rows, OneLine row.2 := by
  have hflags := oneLine_flagsText report.flags
  rw [flagsText] at hflags
  simp only [rows, List.forall_mem_cons, oneLine_quoted, oneLine_quotedOrDash, oneLine_toString,
    oneLine_scope_name, Location.oneLine_text, LocationRange.oneLine_text, hflags,
    List.not_mem_nil, false_implies, implies_true, and_self]

/-- The keys of all reports. -/
def keys : List String :=
  ["location", "offset", "signature", "whole_signature", "base", "root", "chain", "base_chain",
    "whole_chain", "phrase", "word", "remainder", "whole_word", "word_range", "whole_word_range",
    "namespace", "scope", "calculated", "calculated_whole", "calculated_base", "recipient", "flags"]

theorem keys_rows (report : Inspection) : report.rows.map Prod.fst = keys := by
  simp only [rows, keys, List.map_cons, List.map_nil]

/-- The column of keys has the same width in all reports. -/
theorem keyWidth_rows (report : Inspection) : keyWidth report.rows = 16 := by
  have hkeys : keyWidth report.rows = (keys.map String.length).foldr max 0 := by
    rw [keyWidth, ← keys_rows report, List.map_map, Function.comp_def]
  rw [hkeys]
  decide +kernel

/-- What a report shows apart from its local variables can be read off its rows. -/
theorem eq_of_rows_eq {left right : Inspection} (hrows : left.rows = right.rows)
    (hlocals : left.locals = right.locals) : left = right := by
  have hflags := @flagsText_inj left.flags right.flags
  simp only [flagsText] at hflags
  simp only [rows, List.cons.injEq, Prod.mk.injEq, true_and, and_true, Location.text_inj,
    LocationRange.text_inj, toString_inj, quoted_inj, quotedOrDash_inj, scope_name_inj,
    hflags] at hrows
  simp only [Inspection.ext_iff, hrows, hlocals, and_self]

/-- What follows the rows. -/
def localsText (locals : List LocalReport) : List Char :=
  if locals.isEmpty then [] else "\nlocals:\n".toList ++ locals.flatMap (·.text.toList)

theorem toList_text (report : Inspection) :
    report.text.toList =
      report.rows.flatMap (fun row => (rowText (keyWidth report.rows) row).toList) ++
        localsText report.locals := by
  rw [text, localsText]
  split <;> simp [String.toList_join, List.flatMap_map]

theorem localsText_inj {left right : List LocalReport}
    (hleft : ∀ report ∈ left, ' ' ∉ report.name.toList)
    (hright : ∀ report ∈ right, ' ' ∉ report.name.toList)
    (heq : localsText left = localsText right) : left = right := by
  cases left with
  | nil =>
      cases right with
      | nil => rfl
      | cons other right => simp [localsText] at heq
  | cons report left =>
      cases right with
      | nil => simp [localsText] at heq
      | cons other right => exact LocalReport.texts_inj hleft hright (List.append_cancel_left heq)

/-- Two reports with the same text are equal in everything they report, provided that no name of
a local variable contains a blank. -/
theorem eq_of_text_eq {left right : Inspection}
    (hleft : ∀ report ∈ left.locals, ' ' ∉ report.name.toList)
    (hright : ∀ report ∈ right.locals, ' ' ∉ report.name.toList)
    (htext : left.text = right.text) : left = right := by
  have hchars := congrArg String.toList htext
  have hkeys := left.keys_rows.trans right.keys_rows.symm
  rw [toList_text, toList_text, keyWidth_rows, keyWidth_rows] at hchars
  obtain ⟨hrows, hlocals⟩ := rowTexts_append_inj hkeys left.oneLine_rows right.oneLine_rows hchars
  exact eq_of_rows_eq hrows (localsText_inj hleft hright hlocals)

/-- A variable on the line below its assignment, with some other name on the line after it. -/
def useOfVariable (other : Char) : Buffer :=
  .ofParsed ("x = 1\nx\n" ++ String.singleton other) ⟨.node ⟨"program", true, ⟨0, 9⟩, none⟩ [
    .node ⟨"assignment", true, ⟨0, 5⟩, none⟩ [
      .node ⟨"identifier", true, ⟨0, 1⟩, some "left"⟩ [],
      .node ⟨"=", false, ⟨2, 3⟩, none⟩ [],
      .node ⟨"integer", true, ⟨4, 5⟩, some "right"⟩ []],
    .node ⟨"identifier", true, ⟨6, 7⟩, none⟩ [],
    .node ⟨"identifier", true, ⟨8, 9⟩, none⟩ []], false⟩

/-- Behind the variable. -/
def behindUse : Cursor where
  buffer := useOfVariable 'y'
  offset := 7
  offset_le := by decide +kernel

/-- At the same place of a buffer that differs on the line below. -/
def behindSameUse : Cursor where
  buffer := useOfVariable 'z'
  offset := 7
  offset_le := by decide +kernel

/-- The text of a report on either cursor. -/
def behindUseText : String :=
  "location          2:2\n" ++
  "offset            7\n" ++
  "signature         \"x\"\n" ++
  "whole_signature   \"x\"\n" ++
  "base              \"\"\n" ++
  "root              \"x\"\n" ++
  "chain             \"\"\n" ++
  "base_chain        \"\"\n" ++
  "whole_chain       \"\"\n" ++
  "phrase            \"x\\n\"\n" ++
  "word              \"x\"\n" ++
  "remainder         \"\"\n" ++
  "whole_word        \"x\"\n" ++
  "word_range        2:1-2:2\n" ++
  "whole_word_range  2:1-2:2\n" ++
  "namespace         -\n" ++
  "scope             class\n" ++
  "calculated        \"Integer.new\"\n" ++
  "calculated_whole  \"Integer.new\"\n" ++
  "calculated_base   \"Integer\"\n" ++
  "recipient         -\n" ++
  "flags             -\n" ++
  "\nlocals:\n" ++
  "  x = \"Integer.new\"  (1:1)\n"

theorem eq_of_text_eq_behindUse :
    (ofCursor behindUse).locals = [⟨⟨1, 1⟩, "x", some "Integer.new"⟩] ∧
      (ofCursor behindSameUse).locals = [⟨⟨1, 1⟩, "x", some "Integer.new"⟩] ∧
      (ofCursor behindUse).text = behindUseText ∧
      (ofCursor behindSameUse).text = behindUseText ∧
      ofCursor behindUse = ofCursor behindSameUse := by
  have hlocals : (ofCursor behindUse).locals = [⟨⟨1, 1⟩, "x", some "Integer.new"⟩] := by
    decide +kernel
  have hsamelocals : (ofCursor behindSameUse).locals =
      [⟨⟨1, 1⟩, "x", some "Integer.new"⟩] := by
    decide +kernel
  have htext : (ofCursor behindUse).text = behindUseText := by decide +kernel
  have hsametext : (ofCursor behindSameUse).text = behindUseText := by decide +kernel
  refine ⟨hlocals, hsamelocals, htext, hsametext, ?_⟩
  apply eq_of_text_eq
  · simp [hlocals]
  · simp [hsamelocals]
  · rw [htext, hsametext]

end Inspection

end Caret.Report
