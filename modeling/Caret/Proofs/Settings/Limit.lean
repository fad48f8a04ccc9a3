import Caret.Settings

/-! # The limit on the size of files

Integers of a settings document have 64 bits and a sign, so the limit that a document
sets is below half of what a count can hold.
-/

namespace Caret.Toml

/-- An integer is below the limit of its 64 bits. Nothing is asked of the values inside
a table. -/
def Value.InRange : Value → Prop
  | integer number => number < 0x8000000000000000
  | _ => True

theorem Value.inRange_table (origin : Origin) (entries : Entries) :
    (table origin entries).InRange := trivial

/-- Every value directly in a table is in range. -/
def Entries.InRange (entries : Entries) : Prop :=
  ∀ entry ∈ entries, entry.2.InRange

def Statement.InRange : Statement → Prop
  | assignment _ value => value.InRange
  | _ => True

/-- What a reader reads has a property. -/
def Reader.Yields {α : Type} (item : Reader α) (property : α → Prop) : Prop :=
  ∀ input value rest, item input = some (value, rest) → property value

section Readers

theorem Reader.Yields.repeated {α : Type} {property : α → Prop} {item : Reader α}
    (hitem : item.Yields property) (input : List Char) :
    ∀ value ∈ (Toml.repeated item input).1, property value := by
  fun_induction Toml.repeated item input with
  | case1 input hnone => simp
  | case2 input value rest hread hless values last hrest ih =>
      rw [hrest] at ih
      exact List.forall_mem_cons.mpr ⟨hitem input value rest hread, ih⟩
  | case3 input value rest hread hless => simp

theorem integer?_lt {text : List Char} {number : Int} (hnumber : integer? text = some number) :
    number < 0x8000000000000000 := by
  unfold integer? at hnumber
  dsimp only at hnumber
  split at hnumber
  all_goals
    obtain ⟨read, -, hread⟩ := Option.bind_eq_some_iff.mp hnumber
    split at hread
    next hrange =>
      obtain rfl := Option.some.inj hread
      exact hrange.2
    next => contradiction

theorem yields_integerValue? : integerValue?.Yields Value.InRange := by
  intro input value rest hread
  obtain ⟨number, hnumber, heq⟩ := Option.map_eq_some_iff.mp hread
  obtain ⟨rfl, -⟩ := Prod.mk.inj heq
  exact integer?_lt hnumber

theorem yields_plainValue? : plainValue?.Yields Value.InRange := by
  intro input value rest hread
  unfold plainValue? at hread
  split at hread
  case h_5 =>
    split at hread
    next =>
      obtain ⟨rfl, -⟩ := Prod.mk.inj (Option.some.inj hread)
      trivial
    next => contradiction
  case h_6 => exact yields_integerValue? _ _ _ hread
  -- The other values are strings.
  all_goals
    obtain ⟨content, -, heq⟩ := Option.map_eq_some_iff.mp hread
    obtain ⟨rfl, -⟩ := Prod.mk.inj heq
    trivial

theorem yields_value? (depth : Nat) : (value? depth).Yields Value.InRange := by
  intro input value rest hread
  unfold value? at hread
  split at hread
  next =>
    simp only [Option.bind_eq_bind, Option.bind_eq_some_iff] at hread
    obtain ⟨pairs, -, entries, -, hvalue⟩ := hread
    split at hvalue
    next =>
      obtain ⟨rfl, -⟩ := Prod.mk.inj (Option.some.inj hvalue)
      trivial
    next => contradiction
  next => exact yields_plainValue? _ _ _ hread

theorem Reader.Yields.pair? {item : Reader Value} {property : Value → Prop}
    (hitem : item.Yields property) : (Toml.pair? item).Yields fun pair => property pair.2 := by
  intro input pair rest hread
  simp only [Toml.pair?, Option.bind_eq_bind, Option.bind_eq_some_iff] at hread
  obtain ⟨path, -, start, -, ⟨value, stop⟩, hvalue, heq⟩ := hread
  obtain ⟨rfl, -⟩ := Prod.mk.inj (Option.some.inj heq)
  exact hitem start value stop hvalue

theorem yields_statement? : statement?.Yields Statement.InRange := by
  intro input statement rest hread
  unfold statement? at hread
  split at hread
  next =>
    simp only [Option.bind_eq_bind, Option.bind_eq_some_iff] at hread
    obtain ⟨path, -, start, -, stop, -, heq⟩ := hread
    obtain ⟨rfl, -⟩ := Prod.mk.inj (Option.some.inj heq)
    trivial
  next =>
    split at hread
    next =>
      obtain ⟨rfl, -⟩ := Prod.mk.inj (Option.some.inj hread)
      trivial
    next =>
      simp only [Option.bind_eq_bind, Option.bind_eq_some_iff] at hread
      obtain ⟨⟨pair, start⟩, hpair, stop, -, heq⟩ := hread
      obtain ⟨rfl, -⟩ := Prod.mk.inj (Option.some.inj heq)
      exact (yields_value? nestingLimit).pair? _ pair start hpair

theorem inRange_of_mem_statements? {text : String} {statements : List Statement}
    (hread : statements? text = some statements) :
    ∀ statement ∈ statements, statement.InRange := by
  simp only [statements?] at hread
  split at hread
  next read hread' =>
    obtain rfl := Option.some.inj hread
    have hyields := yields_statement?.repeated
    intro statement hmem
    apply hyields
    rw [hread']
    exact hmem
  next => contradiction

end Readers

section Entries

variable {entries after : Entries}

theorem Entries.InRange.append (hentries : entries.InRange) {value : Value}
    (hvalue : value.InRange) (key : String) : InRange (entries ++ [(key, value)]) := by
  intro entry hmem
  rcases List.mem_append.mp hmem with hfound | hnew
  · exact hentries entry hfound
  · rw [List.mem_singleton.mp hnew]
    exact hvalue

theorem Entries.InRange.replace (hentries : entries.InRange) {value : Value}
    (hvalue : value.InRange) (key : String) : InRange (entries.replace key value) := by
  intro entry hmem
  obtain ⟨before, hbefore, rfl⟩ := List.mem_map.mp hmem
  split
  next => exact hvalue
  next => exact hentries before hbefore

theorem Entries.InRange.assign (hentries : entries.InRange) {value : Value} {path : List String}
    (hvalue : value.InRange) (hassign : Entries.assign value path entries = some after) :
    after.InRange := by
  unfold Entries.assign at hassign
  split at hassign
  next => contradiction
  next key =>
    split at hassign
    next => contradiction
    next =>
      obtain rfl := Option.some.inj hassign
      exact hentries.append hvalue key
  next key step rest =>
    split at hassign
    next =>
      obtain ⟨inner, -, heq⟩ := Option.bind_eq_some_iff.mp hassign
      obtain rfl := Option.some.inj heq
      exact hentries.append (Value.inRange_table _ _) key
    next =>
      obtain ⟨inner, -, heq⟩ := Option.bind_eq_some_iff.mp hassign
      obtain rfl := Option.some.inj heq
      exact hentries.replace (Value.inRange_table _ _) key
    next => contradiction

theorem Entries.InRange.openTable (hentries : entries.InRange) {path : List String}
    (hopen : entries.openTable path = some after) : after.InRange := by
  unfold Entries.openTable at hopen
  split at hopen
  next => contradiction
  next key =>
    split at hopen
    next =>
      obtain rfl := Option.some.inj hopen
      exact hentries.append (Value.inRange_table _ _) key
    next =>
      obtain rfl := Option.some.inj hopen
      exact hentries.replace (Value.inRange_table _ _) key
    next => contradiction
  next key step rest =>
    split at hopen
    next =>
      obtain ⟨inner, -, heq⟩ := Option.bind_eq_some_iff.mp hopen
      obtain rfl := Option.some.inj heq
      exact hentries.append (Value.inRange_table _ _) key
    next => contradiction
    next =>
      obtain ⟨inner, -, heq⟩ := Option.bind_eq_some_iff.mp hopen
      obtain rfl := Option.some.inj heq
      exact hentries.replace (Value.inRange_table _ _) key
    next => contradiction

theorem Entries.InRange.within (hentries : entries.InRange) {change : Entries → Option Entries}
    (hchange : ∀ {after}, change entries = some after → after.InRange) {path : List String}
    (hwithin : Entries.within change path entries = some after) : after.InRange := by
  unfold Entries.within at hwithin
  split at hwithin
  next => exact hchange hwithin
  next key rest =>
    split at hwithin
    next =>
      obtain ⟨inner, -, heq⟩ := Option.bind_eq_some_iff.mp hwithin
      obtain rfl := Option.some.inj heq
      exact hentries.replace (Value.inRange_table _ _) key
    next => contradiction

theorem Entries.InRange.entriesOf (hentries : entries.InRange) {header : List String}
    {statements : List Statement} (hstatements : ∀ statement ∈ statements, statement.InRange)
    (hread : Toml.entriesOf header entries statements = some after) : after.InRange := by
  induction statements generalizing header entries with
  | nil =>
      obtain rfl := Option.some.inj hread
      exact hentries
  | cons statement rest ih =>
      obtain ⟨hstatement, hrest⟩ := List.forall_mem_cons.mp hstatements
      cases statement with
      | blank => exact ih hentries hrest hread
      | header path =>
          obtain ⟨opened, hopen, htail⟩ := Option.bind_eq_some_iff.mp hread
          exact ih (hentries.openTable hopen) hrest htail
      | assignment path value =>
          obtain ⟨assigned, hassigned, htail⟩ := Option.bind_eq_some_iff.mp hread
          exact ih (hentries.within (hentries.assign hstatement) hassigned) hrest htail

end Entries

end Caret.Toml

namespace Caret.Settings

/-- A limit below half of what a count of 64 bits can hold. -/
def Limited (settings : Settings) : Prop :=
  settings.maxFileSize < 0x8000000000000000

theorem limited_default : default.Limited := by
  show 16 * 1024 * 1024 < 0x8000000000000000
  decide

variable {settings after : Settings}

theorem lt_of_maxFileSize? {value : Toml.Value} {size : Nat} (hvalue : value.InRange)
    (hsize : maxFileSize? value = some size) : size < 0x8000000000000000 := by
  unfold maxFileSize? at hsize
  split at hsize
  next number =>
    split at hsize
    next hpos =>
      obtain rfl := Option.some.inj hsize
      exact (Int.toNat_lt hpos).mpr hvalue
    next => contradiction
  next => contradiction

theorem Limited.set (hlimited : settings.Limited) {key : String} {value : Toml.Value}
    (hvalue : value.InRange) (hset : settings.set key value = .ok after) : after.Limited := by
  unfold Settings.set at hset
  dsimp only at hset
  split at hset
  · split at hset
    next =>
      obtain rfl := Except.ok.inj hset
      exact hlimited
    next => contradiction
  · split at hset
    next =>
      obtain rfl := Except.ok.inj hset
      exact hlimited
    next => contradiction
  · split at hset
    next size hsize =>
      obtain rfl := Except.ok.inj hset
      exact lt_of_maxFileSize? hvalue hsize
    next => contradiction
  · contradiction

theorem Limited.foldlM {entries : Toml.Entries} (hlimited : settings.Limited)
    (hentries : entries.InRange)
    (hset : entries.foldlM (fun settings (key, value) => settings.set key value) settings =
      .ok after) : after.Limited := by
  induction entries generalizing settings with
  | nil =>
      obtain rfl := Except.ok.inj hset
      exact hlimited
  | cons entry rest ih =>
      obtain ⟨key, value⟩ := entry
      obtain ⟨hvalue, hrest⟩ := List.forall_mem_cons.mp hentries
      rw [List.foldlM_cons] at hset
      dsimp only at hset
      cases hfirst : settings.set key value with
      | error fault =>
          rw [hfirst] at hset
          contradiction
      | ok next =>
          rw [hfirst] at hset
          exact ih (hlimited.set hvalue hfirst) hrest hset

/-- The limit that a settings document sets has 63 bits. -/
theorem limited_of_parse {text : String} (hparse : parse text = .ok settings) :
    settings.Limited := by
  unfold parse ofDocument at hparse
  split at hparse
  next => contradiction
  next statements hstatements =>
    split at hparse
    next => contradiction
    next entries hentries =>
      have hrange : entries.InRange :=
        Toml.Entries.InRange.entriesOf (fun _ hmem => absurd hmem List.not_mem_nil)
          (Toml.inRange_of_mem_statements? hstatements) hentries
      cases hset : entries.foldlM (fun settings (key, value) => settings.set key value) default with
      | error fault =>
          rw [hset] at hparse
          contradiction
      | ok after =>
          rw [hset] at hparse
          obtain rfl := Except.ok.inj hparse
          exact limited_default.foldlM hrange hset

end Caret.Settings
