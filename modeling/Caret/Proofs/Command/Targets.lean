import Caret.Command.Target
import Caret.Proofs.Text.Decimals
import Caret.Proofs.Text.SpanOrder
import Caret.Report.Conversion

/-! # Targets read from reports

A target is read if it is a path and two counts from one after colons, and there is only
one way to see a text like that. The colons and digits of the path do no harm, since the
line and the column are split off at the end. So a location that is printed after a path
and a colon is read as a target in the file at that path.
-/

namespace Caret.Command.Target

open Report Text

/-- A number in digits of some kind. -/
def Numeral (digit : Char → Bool) (text : List Char) : Prop :=
  text ≠ [] ∧ ∀ c ∈ text, digit c

/-- A path on one line, and after colons two numbers in digits of some kind. -/
structure Written (digit : Char → Bool) (input path line column : List Char) : Prop where
  input_eq : input = path ++ ':' :: line ++ ':' :: column
  path_ne_nil : path ≠ []
  one_line : '\n' ∉ path
  line_numeral : Numeral digit line
  column_numeral : Numeral digit column

/-- Digits count to an index if they stand for the number of indices up to it. Counts have
64 bits. -/
def CountsTo (digits : List Char) (index : Nat) : Prop :=
  Nat.ofDigitChars 10 digits 0 = index + 1 ∧ index + 1 < UInt64.size

/-- The digits of ASCII are digits of a script. -/
theorem isDecimalDigit_of_isDigit {c : Char} (hdigit : c.isDigit) : Unicode.isDecimalDigit c := by
  have hinorder : InOrder Unicode.decimalDigits := by decide +kernel
  have hmem : ⟨0x30, 0x3a⟩ ∈ Unicode.decimalDigits := by decide +kernel
  have hholds : Span.contains ⟨0x30, 0x3a⟩ c.toNat := by
    rw [Char.isDigit, Bool.and_eq_true, decide_eq_true_iff, decide_eq_true_iff] at hdigit
    exact Span.contains_iff.mpr ⟨hdigit.1, Nat.lt_succ_of_le hdigit.2⟩
  rw [Unicode.isDecimalDigit, hinorder.holding_of_contains hmem hholds]
  rfl

theorem isNumber_iff {text : List Char} :
    isNumber text ↔ Numeral Unicode.isDecimalDigit text := by
  simp [isNumber, Numeral]

theorem Numeral.unicode {text : List Char} (hnumeral : Numeral Char.isDigit text) :
    Numeral Unicode.isDecimalDigit text :=
  ⟨hnumeral.1, fun c hmem => isDecimalDigit_of_isDigit (hnumeral.2 c hmem)⟩

theorem numeral_printed (n : Nat) : Numeral Char.isDigit (printed n) :=
  ⟨printed_ne_nil n, fun _ => isDigit_of_mem_printed⟩

theorem Numeral.colon_not_mem {text : List Char}
    (hnumeral : Numeral Unicode.isDecimalDigit text) : ':' ∉ text :=
  fun hmem => absurd (hnumeral.2 ':' hmem) (by decide +kernel)

theorem Written.unicode {input path line column : List Char}
    (hwritten : Written Char.isDigit input path line column) :
    Written Unicode.isDecimalDigit input path line column :=
  { hwritten with
    line_numeral := hwritten.line_numeral.unicode
    column_numeral := hwritten.column_numeral.unicode }

/-- The last two numbers after colons are the line and the column. -/
theorem pieces?_eq_some_iff {input path line column : List Char} :
    pieces? input = some (path, line, column) ↔
      Written Unicode.isDecimalDigit input path line column := by
  constructor
  · intro hpieces
    simp only [pieces?, Option.bind_eq_bind, Option.bind_eq_some_iff, Prod.exists] at hpieces
    obtain ⟨front, back, hback, before, after, hfront, hchecks⟩ := hpieces
    obtain ⟨rfl, -⟩ := splitLast_eq_some_iff.mp hback
    obtain ⟨rfl, -⟩ := splitLast_eq_some_iff.mp hfront
    split at hchecks
    next hall =>
      obtain ⟨rfl, rfl, rfl⟩ : before = path ∧ after = line ∧ back = column := by
        simpa using hchecks
      simp only [Bool.and_eq_true, Bool.not_eq_true', List.isEmpty_eq_false_iff,
        List.contains_eq_mem, decide_eq_false_iff_not, isNumber_iff] at hall
      obtain ⟨⟨⟨hpath, hfeed⟩, hline⟩, hcolumn⟩ := hall
      exact ⟨rfl, hpath, hfeed, hline, hcolumn⟩
    next => cases hchecks
  · rintro ⟨rfl, hpath, hfeed, hline, hcolumn⟩
    -- Numbers hold no colon, so the last two colons are the ones in front of them.
    have hback := splitLast_append (path ++ ':' :: line) hcolumn.colon_not_mem
    have hfront := splitLast_append path hline.colon_not_mem
    rw [pieces?, hback]
    simp [hfront, hpath, hfeed, isNumber_iff.mpr hline, isNumber_iff.mpr hcolumn]

/-- A text is seen in one way only. -/
theorem Written.unique {input path line column path' line' column' : List Char}
    (hwritten : Written Unicode.isDecimalDigit input path line column)
    (hother : Written Unicode.isDecimalDigit input path' line' column') :
    path = path' ∧ line = line' ∧ column = column' := by
  have hpieces := pieces?_eq_some_iff.mpr hwritten
  rw [pieces?_eq_some_iff.mpr hother] at hpieces
  simpa [eq_comm] using hpieces

theorem indexOfCount?_eq_some_iff {digits : List Char} {index : Nat} :
    indexOfCount? digits = some index ↔
      Numeral Char.isDigit digits ∧ CountsTo digits index := by
  have hdecimal : indexOfCount? digits = some index ↔ decimal? digits = some (index + 1) := by
    rw [indexOfCount?]
    split
    next hcount => simp [hcount]
    next hcount => simpa using hcount index
  have hvalue : digitsValue digits = Nat.ofDigitChars 10 digits 0 := rfl
  rw [hdecimal, decimal?, hvalue]
  simp only [Option.ite_none_right_eq_some, Bool.and_eq_true, Bool.not_eq_true',
    List.isEmpty_eq_false_iff, List.all_eq_true, decide_eq_true_eq, Option.some.injEq,
    Numeral, CountsTo]
  constructor
  · rintro ⟨⟨hdigits, hbits⟩, hcount⟩
    exact ⟨hdigits, hcount, hcount ▸ hbits⟩
  · rintro ⟨hdigits, hcount, hbits⟩
    exact ⟨⟨hdigits, hcount ▸ hbits⟩, hcount⟩

theorem countsTo_printed {index : Nat} (hbits : index + 1 < UInt64.size) :
    CountsTo (printed (index + 1)) index :=
  ⟨digitsValue_printed (index + 1), hbits⟩

variable {input : String} {target : Target}

theorem parse_of_read {result : Except Fault Target} (hread : read input = result) :
    parse input = result.mapError fun fault => .invalidLocation input fault.reason := by
  rw [parse, hread]

theorem read_of_written {path line column : List Char}
    (hwritten : Written Unicode.isDecimalDigit input.toList path line column) :
    read input = match indexOfCount? line, indexOfCount? column with
      | some line, some column => .ok ⟨String.ofList path, ⟨line, column⟩⟩
      | _, _ => .error .notCountedFromOne := by
  unfold read
  split
  next hpieces =>
    rw [pieces?_eq_some_iff.mpr hwritten] at hpieces
    cases hpieces
  next hpieces =>
    obtain ⟨rfl, rfl, rfl⟩ := hwritten.unique (pieces?_eq_some_iff.mp hpieces)
    rfl

theorem read_of_not_written
    (hnone : ∀ path line column, ¬ Written Unicode.isDecimalDigit input.toList path line column) :
    read input = .error .notThreeParts := by
  have hpieces : pieces? input.toList = none := by
    refine Option.eq_none_iff_forall_ne_some.mpr ?_
    rintro ⟨path, line, column⟩ hpieces
    exact hnone path line column (pieces?_eq_some_iff.mp hpieces)
  rw [read, hpieces]

/-- A text is accepted if its numbers are counts from one in digits of ASCII. -/
theorem parse_eq_ok_iff :
    parse input = .ok target ↔ ∃ line column,
      Written Char.isDigit input.toList target.path.toList line column ∧
        CountsTo line target.position.line ∧ CountsTo column target.position.column := by
  constructor
  · intro hparse
    by_cases hwritten : ∃ path line column,
        Written Unicode.isDecimalDigit input.toList path line column
    · obtain ⟨path, line, column, hwritten⟩ := hwritten
      have hresult := parse_of_read (read_of_written hwritten)
      rw [hparse] at hresult
      split at hresult
      next lineIndex columnIndex hline hcolumn =>
        obtain rfl := Except.ok.inj hresult
        obtain ⟨hline, hlineCount⟩ := indexOfCount?_eq_some_iff.mp hline
        obtain ⟨hcolumn, hcolumnCount⟩ := indexOfCount?_eq_some_iff.mp hcolumn
        refine ⟨line, column, ?_, hlineCount, hcolumnCount⟩
        rw [String.toList_ofList]
        exact { hwritten with line_numeral := hline, column_numeral := hcolumn }
      next => cases hresult
    · simp only [not_exists] at hwritten
      have hresult := parse_of_read (read_of_not_written hwritten)
      rw [hparse] at hresult
      cases hresult
  · rintro ⟨line, column, hwritten, hline, hcolumn⟩
    have hlineIndex := indexOfCount?_eq_some_iff.mpr ⟨hwritten.line_numeral, hline⟩
    have hcolumnIndex := indexOfCount?_eq_some_iff.mpr ⟨hwritten.column_numeral, hcolumn⟩
    rw [parse_of_read (read_of_written hwritten.unicode), hlineIndex, hcolumnIndex,
      String.ofList_toList]
    rfl

theorem parse_of_written {path line column : List Char}
    (hwritten : Written Unicode.isDecimalDigit input.toList path line column)
    (hrefused : ∀ target, parse input ≠ .ok target) :
    parse input = .error (.invalidLocation input "line and column start at 1") := by
  have hresult := parse_of_read (read_of_written hwritten)
  split at hresult
  next => exact absurd hresult (hrefused _)
  next => exact hresult

theorem parse_of_not_written
    (hnone : ∀ path line column, ¬ Written Unicode.isDecimalDigit input.toList path line column) :
    parse input = .error (.invalidLocation input "expected path:line:column") :=
  parse_of_read (read_of_not_written hnone)

variable {path : String} {position : Position}

/-- What is printed for a position is read as that position. -/
theorem parse_location (hpath : path ≠ "") (hfeed : '\n' ∉ path.toList)
    (hline : position.line + 1 < UInt64.size) (hcolumn : position.column + 1 < UInt64.size) :
    parse (path ++ ":" ++ (Location.ofPosition position).text) = .ok ⟨path, position⟩ := by
  have hcount : ∀ {index : Nat}, index + 1 < UInt64.size → countFromOne index = index + 1 :=
    fun hbits => Nat.min_eq_left (Nat.le_sub_one_of_lt hbits)
  have hchars : (path ++ ":" ++ (Location.ofPosition position).text).toList =
      path.toList ++ ':' :: printed (position.line + 1) ++
        ':' :: printed (position.column + 1) := by
    simp [Location.text, Location.ofPosition, hcount hline, hcount hcolumn, printed]
  refine parse_eq_ok_iff.mpr ⟨_, _, ?_, countsTo_printed hline, countsTo_printed hcolumn⟩
  exact ⟨hchars, by simpa using hpath, hfeed, numeral_printed _, numeral_printed _⟩

/-- A target is read from what is written as one, and from nothing else. An input has at most
one path, line and column, also where its path holds colons and digits. It is accepted if
these numbers are counts from one in digits of ASCII. Other digits, zeros and counts that do
not fit are told from an input without two numbers. What is printed for a position is
accepted. -/
theorem parse_written :
    (∀ input : String,
      (∀ path line column path' line' column',
        Written Unicode.isDecimalDigit input.toList path line column →
        Written Unicode.isDecimalDigit input.toList path' line' column' →
          path = path' ∧ line = line' ∧ column = column') ∧
      (∀ target, parse input = .ok target ↔ ∃ line column,
        Written Char.isDigit input.toList target.path.toList line column ∧
          CountsTo line target.position.line ∧ CountsTo column target.position.column) ∧
      (∀ path line column, Written Unicode.isDecimalDigit input.toList path line column →
        (∀ target, parse input ≠ .ok target) →
          parse input = .error (.invalidLocation input "line and column start at 1")) ∧
      ((∀ path line column, ¬ Written Unicode.isDecimalDigit input.toList path line column) →
        parse input = .error (.invalidLocation input "expected path:line:column"))) ∧
    (∀ (path : String) (position : Position), path ≠ "" → '\n' ∉ path.toList →
      position.line < UInt64.size - 1 → position.column < UInt64.size - 1 →
        parse (path ++ ":" ++ (Location.ofPosition position).text) = .ok ⟨path, position⟩) := by
  refine ⟨fun input => ⟨?_, ?_, ?_, parse_of_not_written⟩, ?_⟩
  · intro path line column path' line' column' hwritten hother
    exact hwritten.unique hother
  · exact fun target => parse_eq_ok_iff
  · intro path line column hwritten hrefused
    exact parse_of_written hwritten hrefused
  · intro path position hpath hfeed hline hcolumn
    exact parse_location hpath hfeed (Nat.lt_sub_iff_add_lt.mp hline)
      (Nat.lt_sub_iff_add_lt.mp hcolumn)

theorem parse_written_colons :
    parse "a:1:02:3" = .ok ⟨"a:1", ⟨1, 2⟩⟩ ∧
    parse "a:1:०:3" = .error (.invalidLocation "a:1:०:3" "line and column start at 1") ∧
    parse ("a:1" ++ ":" ++ (Location.ofPosition ⟨1, 2⟩).text) = .ok ⟨"a:1", ⟨1, 2⟩⟩ := by
  obtain ⟨hinput, hprinted⟩ := parse_written
  refine ⟨((hinput "a:1:02:3").2.1 ⟨"a:1", ⟨1, 2⟩⟩).mpr ⟨['0', '2'], ['3'], ?_, ?_, ?_⟩, ?_,
    hprinted "a:1" ⟨1, 2⟩ (by decide) (by decide) (by decide) (by decide)⟩
  · exact ⟨by decide, by decide, by decide, ⟨by decide, by simp⟩, ⟨by decide, by simp⟩⟩
  · exact ⟨by decide, by decide⟩
  · exact ⟨by decide, by decide⟩
  · have hscript : Numeral Unicode.isDecimalDigit ['०'] :=
      ⟨by decide, List.forall_mem_singleton.mpr (by decide +kernel)⟩
    have hcolumn : Numeral Unicode.isDecimalDigit ['3'] :=
      ⟨by decide, List.forall_mem_singleton.mpr (by decide +kernel)⟩
    have hrefused : (parse "a:1:०:3").isOk = false := by decide +kernel
    refine (hinput "a:1:०:3").2.2.1 ['a', ':', '1'] ['०'] ['3']
      ⟨by decide, by decide, by decide, hscript, hcolumn⟩ fun target haccepted => ?_
    rw [haccepted] at hrefused
    cases hrefused

end Caret.Command.Target
