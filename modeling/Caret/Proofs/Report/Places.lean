import Caret.Proofs.Report.Unambiguous
import Caret.Proofs.Report.Values

/-! # Offsets and locations in what is printed

A conversion prints an offset and its location and nothing else. A report on a cursor shows
them among other facts: as text in the first two rows, and as JSON in members of their own.
What is printed in either format tells them.
-/

namespace Caret.Report

open Text

section Printed

variable (location : Location) (offset : Nat)

/-- The line about an offset and its location. -/
def placeLine : String :=
  "offset " ++ toString offset ++ " = " ++ toString location.line ++ ":" ++
    toString location.column ++ "\n"

/-- A location as a member of an object. -/
def locationMember : String :=
  "  \"location\": \x7b\n    \"column\": " ++ toString location.column ++ ",\n    \"line\": " ++
    toString location.line ++ "\n  \x7d"

/-- An offset as a member of an object. -/
def offsetMember : String :=
  "  \"offset\": " ++ toString offset

/-- What is printed about an offset and its location. -/
def placeText : Format → String
  | .text => placeLine location offset
  | .json => "\x7b\n" ++ locationMember location ++ ",\n" ++ offsetMember offset ++ "\n\x7d"

/-- The first two rows of what is printed about a cursor. -/
def placeRows : String :=
  "location          " ++ toString location.line ++ ":" ++ toString location.column ++ "\n" ++
    "offset            " ++ toString offset ++ "\n"

/-- Whether what is printed about a cursor shows an offset and its location. They have the first
two rows, or two members of an object. -/
def ShowsPlace (output : String) : Format → Prop
  | .text => ∃ others, output = placeRows location offset ++ others
  | .json => ∃ front between back, output = front ++ "\n" ++ locationMember location ++ "," ++
      between ++ "\n" ++ offsetMember offset ++ "," ++ back

end Printed

section Members

open Json

theorem quote_keys : quote "location" = "\"location\"" ∧ quote "column" = "\"column\"" ∧
    quote "line" = "\"line\"" ∧ quote "offset" = "\"offset\"" := by
  decide +kernel

theorem memberLine_location (location : Location) :
    memberLine "location" location.json = "\n" ++ locationMember location := by
  unfold memberLine locationMember
  apply String.toList_inj.mp
  simp [Location.json, renderAt, renderMembers, quote_keys, toList_newline, indent]

theorem memberLine_offset (offset : Nat) :
    memberLine "offset" (number offset) = "\n" ++ offsetMember offset := by
  unfold memberLine offsetMember
  apply String.toList_inj.mp
  simp [renderAt, quote_keys, toList_newline, indent]

end Members

theorem Location.json_inj {left right : Location} : left.json = right.json ↔ left = right := by
  cases left
  cases right
  simp [json]

theorem LocationRange.json_inj {left right : LocationRange} :
    left.json = right.json ↔ left = right := by
  cases left
  cases right
  simp [json, Location.json_inj]

theorem LocalReport.json_inj {left right : LocalReport} :
    left.json = right.json ↔ left = right := by
  cases left
  cases right
  simp [json, Location.json_inj, Json.ofText?_inj]

namespace Conversion

theorem render_eq (conversion : Conversion) (format : Format) :
    conversion.render format = placeText conversion.location conversion.offset format := by
  cases format with
  | text =>
      unfold render placeText placeLine Location.text
      simp only [String.append_assoc]
  | json =>
      unfold render placeText
      rw [Json.render_object_cons, Json.renderMembers_cons, memberLine_location, memberLine_offset,
        Json.renderMembers]
      apply String.toList_inj.mp
      simp

example : (Conversion.mk ⟨3, 2⟩ 18).render .text = "offset 18 = 2:3\n" := by decide +kernel

/-- What is printed about an offset and its location tells both. -/
theorem render_inj {left right : Conversion} {format : Format} :
    left.render format = right.render format ↔ left = right := by
  constructor
  · intro heq
    rw [Conversion.mk.injEq]
    cases format with
    | text =>
        have hchars := congrArg String.toList heq
        simp only [render, String.toList_append, List.append_assoc,
          List.append_cancel_left_eq] at hchars
        have hends : ∀ more : List Char, EndsNumber (" = ".toList ++ more) :=
          fun more => Json.endsNumber_of_head (by decide) _
        obtain ⟨hoffset, hlocation⟩ := printed_append_inj (hends _) (hends _) hchars
        have htext := List.append_cancel_right (List.append_cancel_left hlocation)
        exact ⟨Location.text_inj.mp (String.toList_inj.mp htext), hoffset⟩
    | json =>
        simp only [render, Json.render_inj, Json.object.injEq, List.cons.injEq, Prod.mk.injEq,
          Location.json_inj, Json.number.injEq, true_and, and_true] at heq
        exact heq
  · exact congrArg (render · format)

end Conversion

namespace Inspection

/-- The JSON of a report tells everything that is reported. -/
theorem json_inj {left right : Inspection} : left.json = right.json ↔ left = right := by
  constructor
  · intro heq
    have hflags : ∀ flags others : List Flag,
        flags.map (Json.string ·.name) = others.map (Json.string ·.name) ↔ flags = others := by
      intro flags others
      exact List.map_inj_right fun _ _ hname => Flag.name_inj.mp (Json.string.inj hname)
    have hlocals : ∀ locals others : List LocalReport,
        locals.map LocalReport.json = others.map LocalReport.json ↔ locals = others := by
      intro locals others
      exact List.map_inj_right fun _ _ => LocalReport.json_inj.mp
    simp only [json, Json.object.injEq, Json.array.injEq, Json.string.injEq, Json.number.injEq,
      List.cons.injEq, Prod.mk.injEq, true_and, and_true, Location.json_inj,
      LocationRange.json_inj, Json.ofText?_inj, scope_name_inj, hflags, hlocals] at heq
    simp only [Inspection.ext_iff, heq, and_self]
  · exact congrArg json

/-- Where two reports look alike in some format, they are about the same place. -/
theorem place_eq_of_render_eq {left right : Inspection} {format : Format}
    (heq : left.render format = right.render format) :
    left.location = right.location ∧ left.offset = right.offset := by
  cases format with
  | json =>
      obtain rfl := json_inj.mp (Json.render_inj.mp heq)
      exact ⟨rfl, rfl⟩
  | text =>
      have hchars := congrArg String.toList heq
      have hkeys := left.keys_rows.trans right.keys_rows.symm
      simp only [render, toList_text, keyWidth_rows] at hchars
      obtain ⟨hrows, -⟩ := rowTexts_append_inj hkeys left.oneLine_rows right.oneLine_rows hchars
      simp only [rows, List.cons.injEq, Prod.mk.injEq, true_and, Location.text_inj,
        toString_inj] at hrows
      exact ⟨hrows.1, hrows.2.1⟩

theorem rowText_location (value : String) :
    rowText 16 ("location", value) = "location          " ++ value ++ "\n" := by
  have hkey : "location" ++ String.ofList (List.replicate (16 - "location".length) ' ') ++ "  " =
      "location          " := by
    decide +kernel
  exact congrArg (· ++ value ++ "\n") hkey

theorem rowText_offset (value : String) :
    rowText 16 ("offset", value) = "offset            " ++ value ++ "\n" := by
  have hkey : "offset" ++ String.ofList (List.replicate (16 - "offset".length) ' ') ++ "  " =
      "offset            " := by
    decide +kernel
  exact congrArg (· ++ value ++ "\n") hkey

/-- A report shows the offset and the location of its cursor in either format. -/
theorem showsPlace (report : Inspection) (format : Format) :
    ShowsPlace report.location report.offset (report.render format) format := by
  cases format with
  | text =>
      obtain ⟨others, hrows⟩ : ∃ others, report.rows =
          ("location", report.location.text) :: ("offset", toString report.offset) :: others :=
        ⟨_, rfl⟩
      refine ⟨String.ofList (others.flatMap (fun row => (rowText 16 row).toList) ++
        localsText report.locals), ?_⟩
      unfold placeRows
      apply String.toList_inj.mp
      rw [render, toList_text, keyWidth_rows, hrows]
      simp [rowText_location, rowText_offset, Location.text]
  | json =>
      obtain ⟨first, front, next, last, back, hjson⟩ : ∃ first front next last back,
          report.json = .object (first :: (front ++ ("location", report.location.json) :: next ::
            ("offset", .number report.offset) :: last :: back)) :=
        ⟨("base", .string report.base), [
          ("base_chain", .string report.baseChain),
          ("calculated_base", .string report.calculatedBase),
          ("calculated_signature", .string report.calculatedSignature),
          ("calculated_whole_signature", .string report.calculatedWholeSignature),
          ("chain", .string report.chain),
          ("flags", .array (report.flags.map fun flag => .string flag.name)),
          ("locals", .array (report.locals.map LocalReport.json))],
          _, _, _, rfl⟩
      obtain ⟨firstKey, firstValue⟩ := first
      obtain ⟨nextKey, nextValue⟩ := next
      obtain ⟨lastKey, lastValue⟩ := last
      refine ⟨"\x7b" ++ Json.memberLine firstKey firstValue ++ Json.renderMembers 1 front ++ ",",
        Json.memberLine nextKey nextValue ++ ",",
        Json.memberLine lastKey lastValue ++ Json.renderMembers 1 back ++ "\n\x7d", ?_⟩
      rw [render, hjson, Json.render_object_cons, Json.renderMembers_append,
        Json.renderMembers_cons, Json.renderMembers_cons, Json.renderMembers_cons,
        Json.renderMembers_cons, memberLine_location, memberLine_offset]
      simp only [String.append_assoc]

end Inspection

end Caret.Report
