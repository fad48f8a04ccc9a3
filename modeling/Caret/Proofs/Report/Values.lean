import Caret.Json
import Caret.Proofs.Text.Decimals
import Caret.Proofs.Text.Quotation

/-! # Reading JSON

No two values are written alike. The first character of a value tells its kind, the items of
a list and the members of an object are told apart by the commas before them, and what follows
the last one begins on a new line.
-/

namespace Caret.Json

open Text

/-- A property of all values, which a list has if its items have it, and an object if its
members have it. -/
theorem induction {motive : Json → Prop} (null : motive null)
    (number : ∀ value, motive (number value)) (string : ∀ value, motive (string value))
    (array : ∀ items, (∀ item ∈ items, motive item) → motive (array items))
    (object : ∀ members, (∀ member ∈ members, motive member.2) → motive (object members))
    (json : Json) : motive json := by
  match json with
  | .null => exact null
  | .number value => exact number value
  | .string value => exact string value
  | .array items =>
      exact array items fun item hitem =>
        have := List.sizeOf_lt_of_mem hitem
        Json.induction null number string array object item
  | .object members =>
      exact object members fun member hmember =>
        have := List.sizeOf_lt_of_mem hmember
        have : sizeOf member.2 < sizeOf member := by
          obtain ⟨key, value⟩ := member
          simp only [Prod.mk.sizeOf_spec]
          omega
        Json.induction null number string array object member.2
termination_by sizeOf json
decreasing_by all_goals simp; omega

section Strings

/-- The characters that are not written as they are. -/
def escaped : List Char :=
  '"' :: '\\' :: (List.range 32).map Char.ofNat

theorem mem_escaped_of_lt {c : Char} (hlt : c.toNat < 32) : c ∈ escaped := by
  refine List.mem_cons_of_mem _ (List.mem_cons_of_mem _ (List.mem_map.mpr ⟨c.toNat, ?_, ?_⟩))
  · exact List.mem_range.mpr hlt
  · exact Char.ofNat_toNat c

theorem escapeChar_of_not_mem {c : Char} (hplain : c ∉ escaped) : escapeChar c = [c] := by
  have hlarge : ¬ c.toNat < 32 := fun hlt => hplain (mem_escaped_of_lt hlt)
  unfold escapeChar
  split
  case h_8 => rw [if_neg fun hlt => hlarge (Nat.lt_trans hlt (by decide)), if_neg hlarge]
  all_goals exact absurd (by decide) hplain

theorem escapeChar_of_mem {c : Char} (hc : c ∈ escaped) :
    (escapeChar c).head? = some '\\' := by
  have hall : escaped.all fun c => (escapeChar c).head? == some '\\' := by decide +kernel
  exact beq_iff_eq.mp (List.all_eq_true.mp hall c hc)

/-- No escape is the beginning of another. -/
theorem eq_of_prefix_escapeChar {c d : Char} (hc : c ∈ escaped) (hd : d ∈ escaped)
    (hbegins : escapeChar c <+: escapeChar d) : c = d := by
  have hall : escaped.all fun c => escaped.all fun d =>
      !(escapeChar c).isPrefixOf (escapeChar d) || c == d := by
    decide +kernel
  have hpair := List.all_eq_true.mp (List.all_eq_true.mp hall c hc) d hd
  rw [List.isPrefixOf_iff_prefix.mpr hbegins] at hpair
  exact beq_iff_eq.mp hpair

theorem readable_escapeChar : Readable escapeChar where
  ne_quote c rest tail := by
    intro heq
    by_cases hc : c ∈ escaped
    · have hhead := congrArg List.head? heq
      rw [List.head?_append, escapeChar_of_mem hc] at hhead
      exact absurd (Option.some.inj hhead) (by decide)
    · rw [escapeChar_of_not_mem hc, List.singleton_append, List.cons.injEq] at heq
      exact hc (heq.1 ▸ List.mem_cons_self)
  append_inj c d rest tail := by
    intro heq
    have hhead := congrArg List.head? heq
    rw [List.head?_append, List.head?_append] at hhead
    have hbackslash : '\\' ∈ escaped := by decide
    by_cases hc : c ∈ escaped <;> by_cases hd : d ∈ escaped
    · have hsame : c = d := by
        rcases List.prefix_or_prefix_of_prefix (List.prefix_append (escapeChar c) rest)
          (heq ▸ List.prefix_append (escapeChar d) tail) with hbegins | hbegins
        · exact eq_of_prefix_escapeChar hc hd hbegins
        · exact (eq_of_prefix_escapeChar hd hc hbegins).symm
      subst hsame
      exact ⟨rfl, List.append_cancel_left heq⟩
    · rw [escapeChar_of_mem hc, escapeChar_of_not_mem hd] at hhead
      exact absurd (Option.some.inj hhead ▸ hbackslash) hd
    · rw [escapeChar_of_mem hd, escapeChar_of_not_mem hc] at hhead
      exact absurd (Option.some.inj hhead ▸ hbackslash) hc
    · rw [escapeChar_of_not_mem hc, escapeChar_of_not_mem hd] at heq
      simpa using heq

theorem quote_append_inj {left right : String} {rest tail : List Char}
    (heq : (quote left).toList ++ rest = (quote right).toList ++ tail) :
    left = right ∧ rest = tail := by
  rw [quote, quote, String.toList_ofList, String.toList_ofList] at heq
  obtain ⟨hchars, hrest⟩ := readable_escapeChar.between_append_inj heq
  exact ⟨String.toList_inj.mp hchars, hrest⟩

end Strings

section Kinds

/-- The kinds of values. -/
inductive Kind where
  | null
  | number
  | string
  | array
  | object
deriving DecidableEq

def kind : Json → Kind
  | null => .null
  | number _ => .number
  | string _ => .string
  | array _ => .array
  | object _ => .object

/-- The kind of the value that begins with a character. -/
def kindOf (c : Char) : Kind :=
  if c = 'n' then .null
  else if c = '"' then .string
  else if c = '[' then .array
  else if c = '\x7b' then .object
  else .number

theorem kindOf_of_isDigit {c : Char} (hdigit : c.isDigit) : kindOf c = .number := by
  have hne : ∀ d : Char, d.isDigit = false → c ≠ d := by
    rintro d hd rfl
    rw [hd] at hdigit
    contradiction
  rw [kindOf, if_neg (hne _ (by decide)), if_neg (hne _ (by decide)), if_neg (hne _ (by decide)),
    if_neg (hne _ (by decide))]

theorem head?_renderAt (level : Nat) (json : Json) :
    (json.renderAt level).toList.head?.map kindOf = some json.kind := by
  cases json with
  | null => simp [renderAt, kindOf, kind]
  | number value =>
      obtain ⟨c, digits, hdigits⟩ := List.exists_cons_of_ne_nil (printed_ne_nil value)
      have hc : c.isDigit := isDigit_of_mem_printed (hdigits ▸ List.mem_cons_self)
      rw [printed] at hdigits
      rw [renderAt, hdigits, List.head?_cons, Option.map_some, kindOf_of_isDigit hc, kind]
  | string value =>
      rw [renderAt, quote, String.toList_ofList]
      rfl
  | array items => cases items <;> simp [renderAt, kindOf, kind]
  | object members => cases members <;> simp [renderAt, kindOf, kind]

theorem kind_eq {level : Nat} {left right : Json} {rest tail : List Char}
    (heq : (left.renderAt level).toList ++ rest = (right.renderAt level).toList ++ tail) :
    left.kind = right.kind := by
  have hfront : ∀ (json : Json) (after : List Char),
      ((json.renderAt level).toList ++ after).head?.map kindOf = some json.kind := by
    intro json after
    have hhead := head?_renderAt level json
    cases hchars : (json.renderAt level).toList with
    | nil => simp [hchars] at hhead
    | cons c chars => simpa [hchars] using hhead
  have hboth := congrArg (·.head?.map kindOf) heq
  simpa only [hfront, Option.some.injEq] using hboth

end Kinds

section Lists

variable {α : Type} {write : α → List Char} {value other : α} {left right : List α}
  {rest tail : List Char}

/-- Whether something can be read off what is written for it, wherever that stands in front of
a comma or a line end. -/
def Legible (write : α → List Char) (value : α) : Prop :=
  ∀ (other : α) (rest tail : List Char), EndsNumber rest → EndsNumber tail →
    write value ++ rest = write other ++ tail → value = other ∧ rest = tail

/-- What is written with commas between, in brackets of which the closing one begins a line of
its own. -/
def bracketed (write : α → List Char) (opening closing : Char) (line : List Char) :
    List α → List Char
  | [] => [opening, closing]
  | value :: more =>
      opening :: (write value ++ (more.flatMap (',' :: write ·) ++ ('\n' :: (line ++ [closing]))))

theorem endsNumber_of_head {c : Char} (hc : c.isDigit = false) (more : List Char) :
    EndsNumber (c :: more) := by
  rintro d hd
  rw [← Option.some.inj hd, hc]

theorem endsNumber_flatMap (hrest : EndsNumber rest) :
    EndsNumber (left.flatMap (',' :: write ·) ++ rest) := by
  cases left with
  | nil => exact hrest
  | cons value more => exact endsNumber_of_head (by decide) _

theorem endsNumber_of_newline (hrest : rest.head? = some '\n') : EndsNumber rest := by
  obtain ⟨more, rfl⟩ := List.head?_eq_some_iff.mp hrest
  exact endsNumber_of_head (by decide) more

theorem flatMap_append_inj (hlegible : ∀ value ∈ left, Legible write value)
    (hrest : rest.head? = some '\n') (htail : tail.head? = some '\n')
    (heq : left.flatMap (',' :: write ·) ++ rest = right.flatMap (',' :: write ·) ++ tail) :
    left = right ∧ rest = tail := by
  induction left generalizing right with
  | nil =>
      cases right with
      | nil => exact ⟨rfl, heq⟩
      | cons other more =>
          have hhead := congrArg List.head? heq
          simp [hrest] at hhead
  | cons value left ih =>
      cases right with
      | nil =>
          have hhead := congrArg List.head? heq
          simp [htail] at hhead
      | cons other right =>
          obtain ⟨hvalue, hmore⟩ := List.forall_mem_cons.mp hlegible
          simp only [List.flatMap_cons, List.cons_append, List.append_assoc, List.cons.injEq,
            true_and] at heq
          obtain ⟨rfl, hagain⟩ := hvalue other _ _
            (endsNumber_flatMap (endsNumber_of_newline hrest))
            (endsNumber_flatMap (endsNumber_of_newline htail)) heq
          obtain ⟨rfl, hlast⟩ := ih hmore hagain
          exact ⟨rfl, hlast⟩

/-- What is written in brackets can be read off, whatever follows it. -/
theorem bracketed_append_inj {opening closing : Char} {line : List Char}
    (hclosing : closing ≠ '\n') (hwrite : ∀ value, (write value).head? = some '\n')
    (hlegible : ∀ value ∈ left, Legible write value)
    (heq : bracketed write opening closing line left ++ rest =
      bracketed write opening closing line right ++ tail) : left = right ∧ rest = tail := by
  have hne : ∀ (value : α) (more after : List Char), write value ++ more ≠ closing :: after := by
    intro value more after hboth
    have hhead := congrArg List.head? hboth
    rw [List.head?_append, hwrite] at hhead
    exact hclosing (Option.some.inj hhead).symm
  cases left with
  | nil =>
      cases right with
      | nil => exact ⟨rfl, List.append_cancel_left heq⟩
      | cons other right =>
          simp only [bracketed, List.cons_append, List.nil_append, List.append_assoc,
            List.cons.injEq, true_and] at heq
          exact absurd heq.symm (hne other _ _)
  | cons value left =>
      cases right with
      | nil =>
          simp only [bracketed, List.cons_append, List.nil_append, List.append_assoc,
            List.cons.injEq, true_and] at heq
          exact absurd heq (hne value _ _)
      | cons other right =>
          obtain ⟨hvalue, hmore⟩ := List.forall_mem_cons.mp hlegible
          simp only [bracketed, List.cons_append, List.append_assoc, List.cons.injEq,
            true_and] at heq
          obtain ⟨rfl, hafter⟩ := hvalue other _ _
            (endsNumber_flatMap (endsNumber_of_newline rfl))
            (endsNumber_flatMap (endsNumber_of_newline rfl)) heq
          obtain ⟨rfl, hclosed⟩ := flatMap_append_inj hmore rfl rfl hafter
          simp only [List.cons.injEq, true_and, List.append_cancel_left_eq] at hclosed
          exact ⟨rfl, hclosed⟩

end Lists

section Values

/-- An item of a list on its line. -/
def itemText (level : Nat) (item : Json) : List Char :=
  (newline level).toList ++ (item.renderAt level).toList

/-- A member of an object on its line. -/
def memberText (level : Nat) (member : String × Json) : List Char :=
  (newline level).toList ++ ((quote member.1).toList ++ (':' :: ' ' ::
    (member.2.renderAt level).toList))

theorem toList_renderItems (level : Nat) (items : List Json) :
    (renderItems level items).toList = items.flatMap (',' :: itemText level ·) := by
  induction items with
  | nil => simp [renderItems]
  | cons item rest ih => simp [renderItems, itemText, ih]

theorem toList_renderMembers (level : Nat) (members : List (String × Json)) :
    (renderMembers level members).toList = members.flatMap (',' :: memberText level ·) := by
  induction members with
  | nil => simp [renderMembers]
  | cons member rest ih =>
      obtain ⟨key, value⟩ := member
      simp [renderMembers, memberText, ih]

/-- The blanks in front of what stands at a level. -/
def indent (level : Nat) : List Char :=
  List.replicate (2 * level) ' '

theorem toList_newline (level : Nat) : (newline level).toList = '\n' :: indent level := by
  rw [newline, String.toList_ofList, indent]

theorem toList_renderAt_array (level : Nat) (items : List Json) :
    ((array items).renderAt level).toList =
      bracketed (itemText (level + 1)) '[' ']' (indent level) items := by
  cases items with
  | nil => simp [renderAt, bracketed]
  | cons item rest =>
      simp [renderAt, bracketed, itemText, toList_renderItems, toList_newline]

theorem toList_renderAt_object (level : Nat) (members : List (String × Json)) :
    ((object members).renderAt level).toList =
      bracketed (memberText (level + 1)) '\x7b' '\x7d' (indent level) members := by
  cases members with
  | nil => simp [renderAt, bracketed]
  | cons member rest =>
      simp [renderAt, bracketed, memberText, toList_renderMembers, toList_newline]

theorem legible_memberText {level : Nat} {member : String × Json}
    (hvalue : Legible (fun json => (json.renderAt level).toList) member.2) :
    Legible (memberText level) member := by
  intro other rest tail hrest htail heq
  obtain ⟨key, value⟩ := member
  obtain ⟨otherKey, otherValue⟩ := other
  simp only [memberText, List.append_assoc, List.append_cancel_left_eq] at heq
  obtain ⟨rfl, hafter⟩ := quote_append_inj heq
  simp only [List.cons_append, List.cons.injEq, true_and] at hafter
  obtain ⟨rfl, hlast⟩ := hvalue otherValue rest tail hrest htail hafter
  exact ⟨rfl, hlast⟩

theorem legible_itemText {level : Nat} {item : Json}
    (hitem : Legible (fun json => (json.renderAt level).toList) item) :
    Legible (itemText level) item := by
  intro other rest tail hrest htail heq
  rw [itemText, itemText, List.append_assoc, List.append_assoc] at heq
  exact hitem other rest tail hrest htail (List.append_cancel_left heq)

/-- Every value can be read off its text. -/
theorem legible_renderAt (json : Json) (level : Nat) :
    Legible (fun json => (json.renderAt level).toList) json := by
  induction json using Json.induction generalizing level with
  | null =>
      intro other rest tail _ _ heq
      cases other with
      | null => exact ⟨rfl, List.append_cancel_left heq⟩
      | _ => exact absurd (kind_eq heq) nofun
  | number value =>
      intro other rest tail hrest htail heq
      cases other with
      | number otherValue =>
          simp only [renderAt] at heq
          obtain ⟨rfl, hlast⟩ := printed_append_inj hrest htail heq
          exact ⟨rfl, hlast⟩
      | _ => exact absurd (kind_eq heq) nofun
  | string value =>
      intro other rest tail _ _ heq
      cases other with
      | string otherValue =>
          simp only [renderAt] at heq
          obtain ⟨rfl, hlast⟩ := quote_append_inj heq
          exact ⟨rfl, hlast⟩
      | _ => exact absurd (kind_eq heq) nofun
  | array items ih =>
      intro other rest tail _ _ heq
      cases other with
      | array otherItems =>
          simp only [toList_renderAt_array] at heq
          obtain ⟨rfl, hlast⟩ := bracketed_append_inj (by decide)
            (by simp [itemText, toList_newline])
            (fun item hitem => legible_itemText (ih item hitem _)) heq
          exact ⟨rfl, hlast⟩
      | _ => exact absurd (kind_eq heq) nofun
  | object members ih =>
      intro other rest tail _ _ heq
      cases other with
      | object otherMembers =>
          simp only [toList_renderAt_object] at heq
          obtain ⟨rfl, hlast⟩ := bracketed_append_inj (by decide)
            (by simp [memberText, toList_newline])
            (fun member hmember => legible_memberText (ih member hmember _)) heq
          exact ⟨rfl, hlast⟩
      | _ => exact absurd (kind_eq heq) nofun

/-- No two values have the same text. -/
theorem render_inj {left right : Json} : left.render = right.render ↔ left = right := by
  constructor
  · intro heq
    have hends : EndsNumber [] := by simp [EndsNumber]
    have hchars : left.render.toList ++ [] = right.render.toList ++ [] := by rw [heq]
    exact (legible_renderAt left 0 right [] [] hends hends hchars).1
  · exact congrArg render

theorem ofText?_inj {left right : Option String} : ofText? left = ofText? right ↔ left = right := by
  cases left <;> cases right <;> simp [ofText?]

end Values

section Members

theorem renderMembers_append (level : Nat) (front back : List (String × Json)) :
    renderMembers level (front ++ back) =
      renderMembers level front ++ renderMembers level back := by
  apply String.toList_inj.mp
  simp [toList_renderMembers]

/-- A member of an object that stands in nothing else. -/
def memberLine (key : String) (value : Json) : String :=
  newline 1 ++ quote key ++ ": " ++ value.renderAt 1

theorem renderMembers_cons (key : String) (value : Json) (rest : List (String × Json)) :
    renderMembers 1 ((key, value) :: rest) =
      "," ++ memberLine key value ++ renderMembers 1 rest := by
  rw [renderMembers, memberLine]
  simp only [String.append_assoc]

theorem render_object_cons (key : String) (value : Json) (rest : List (String × Json)) :
    (object ((key, value) :: rest)).render =
      "\x7b" ++ memberLine key value ++ renderMembers 1 rest ++ "\n\x7d" := by
  have hclosing : newline 0 ++ "\x7d" = "\n\x7d" := by decide +kernel
  rw [render, renderAt, memberLine, ← hclosing]
  simp only [String.append_assoc]

end Members

end Caret.Json
