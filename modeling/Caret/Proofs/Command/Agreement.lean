import Caret.Proofs.Command.Targets
import Caret.Proofs.Command.Tasks
import Caret.Proofs.Report.Places
import Caret.Proofs.Text.Positions
import Caret.Syntax.Rows

/-! # The commands agree with each other

A location that one command reports is understood by the others, and leads them to the
offset it was reported for. Whatever location is asked about, both commands that take one
answer, or both refuse it for the same reason.
-/

namespace Caret.Command

open Log Report Text

section Arguments

/-- The arguments that call a command with some values, and with the option for JSON if
that is asked for. -/
def call (command : String) (json : Bool) (values : List String) : List String :=
  command :: (if json then "--json" :: values else values)

/-- A path with a line and a column after it. -/
def located (path line column : String) : String :=
  path ++ ":" ++ line ++ ":" ++ column

/-- A text that is taken for no option. -/
def IsValue (text : String) : Prop :=
  text.toList.head? ≠ some '-'

instance (text : String) : Decidable (IsValue text) :=
  inferInstanceAs (Decidable (_ ≠ _))

theorem IsValue.append {text : String} (hvalue : IsValue text) (hne : text ≠ "") (rest : String) :
    IsValue (text ++ rest) := by
  have hchars : text.toList ≠ [] := by simpa using hne
  obtain ⟨first, others, htext⟩ := List.exists_cons_of_ne_nil hchars
  rw [IsValue, htext] at hvalue
  rw [IsValue, String.toList_append, htext]
  exact hvalue

theorem IsValue.startsWith {text : String} (hvalue : IsValue text) {option : String}
    (hdash : option.toList.head? = some '-') : text.startsWith option = false := by
  rw [Bool.eq_false_iff, ne_eq, String.startsWith_string_iff]
  rintro ⟨rest, hchars⟩
  rw [IsValue, ← hchars, List.head?_append, hdash] at hvalue
  exact hvalue rfl

theorem IsValue.ne {text : String} (hvalue : IsValue text) {option : String}
    (hdash : option.toList.head? = some '-') : text ≠ option := by
  rintro rfl
  exact hvalue hdash

theorem isValue_toString (n : Nat) : IsValue (toString n) := by
  intro hdash
  exact not_mem_printed (by decide) n (List.mem_of_head? hdash)

/-- Values are passed on as they are. -/
theorem sort?_values {values : List String} (hvalues : ∀ value ∈ values, IsValue value) :
    Arguments.sort? values = some ⟨values, 0⟩ := by
  induction values with
  | nil => rfl
  | cons value rest ih =>
      obtain ⟨hvalue, hrest⟩ := List.forall_mem_cons.mp hvalues
      rw [Arguments.sort?, if_neg (hvalue.ne (by decide)), if_neg (hvalue.ne (by decide)),
        hvalue.startsWith (by decide), ih hrest]
      rfl

/-- A value does not ask for help. -/
theorem beforeHelp?_values {values : List String} (hvalues : ∀ value ∈ values, IsValue value) :
    Invocation.beforeHelp? values = none := by
  induction values with
  | nil => rfl
  | cons value rest ih =>
      obtain ⟨hvalue, hrest⟩ := List.forall_mem_cons.mp hvalues
      have hhelp : Invocation.asksHelp value = false := by
        rw [Invocation.asksHelp, hvalue.startsWith (by decide),
          decide_eq_false (hvalue.ne (by decide))]
        rfl
      rw [Invocation.beforeHelp?, if_neg (hvalue.ne (by decide)), hhelp, ih hrest]
      rfl

/-- Where no help is asked for, arguments are taken for the request that a subcommand makes of
them. -/
theorem parse?_cons {command : String} (hcommand : command ∈ ["inspect", "position"])
    {rest : List String} {arguments : Arguments} (hbefore : Invocation.beforeHelp? rest = none)
    (hsort : Arguments.sort? rest = some arguments) :
    Invocation.parse? (command :: rest) =
      (Request.ofSubcommand? command arguments).map .answer := by
  obtain ⟨hversion, hhelp, hname⟩ : Invocation.asksVersion command = false ∧
      Invocation.asksHelp command = false ∧ command ≠ "help" := by
    revert command
    decide +kernel
  rw [Invocation.parse?, hversion, hhelp, if_neg Bool.false_ne_true, if_neg Bool.false_ne_true,
    if_neg hname, hbefore]
  dsimp only
  rw [hsort]
  cases hrequest : Request.ofSubcommand? command arguments <;> simp [hrequest]

/-- A call is taken for the request that its subcommand makes of the values. -/
theorem parse?_call {command : String} (hcommand : command ∈ ["inspect", "position"])
    {values : List String} (hvalues : ∀ value ∈ values, IsValue value) (json : Bool) :
    Invocation.parse? (call command json values) =
      (Request.ofSubcommand? command ⟨values, json.toNat⟩).map .answer := by
  have hbefore := beforeHelp?_values hvalues
  have hsort := sort?_values hvalues
  cases json with
  | false => exact parse?_cons hcommand hbefore hsort
  | true =>
      have hhelp : Invocation.asksHelp "--json" = false := by decide +kernel
      change Invocation.parse? (command :: "--json" :: values) = _
      apply parse?_cons hcommand
      · rw [Invocation.beforeHelp?, if_neg (by decide), hhelp, hbefore]
        rfl
      · rw [Arguments.sort?, if_neg (by decide), if_pos rfl, hsort]
        rfl

/-- A printed number is taken for an offset if it has 64 bits. -/
theorem offset?_toString (offset : Nat) :
    offset? (toString offset) = if offset < UInt64.size then some offset else none := by
  unfold offset?
  split
  next digits hdigits =>
    have hplus : '+' ∈ printed offset := by
      rw [printed, hdigits]
      exact List.mem_cons_self
    exact absurd hplus (not_mem_printed (by decide) offset)
  next => exact decimal?_printed offset

end Arguments

section Answers

variable {environment : Environment} {settings : Settings} {path : String} {buffer : Buffer}
  {events : List Event}

/-- How a run ends whose answer is known. -/
def conclude (settings : Settings) (answered : Except Failure String × List Event) : Outcome :=
  let events := answered.2.filter fun event =>
    (Threshold.ofConfigured settings.logLevel).shows event.level
  match answered.1 with
  | .ok output => .done events output
  | .error failure => .failed events failure

theorem run_eq_conclude (hsettings : loadSettings environment = .ok settings)
    {arguments : List String} {request : Request}
    (hparse : Invocation.parse? arguments = some (.answer request)) :
    run environment arguments =
      conclude settings (answer environment settings request).outcome := by
  rw [run, hparse]
  dsimp only
  rw [hsettings]
  rfl

/-- The buffer and the position that a location leads to. -/
def locate (environment : Environment) (settings : Settings) (location : String) :
    Task (Buffer × Position) := do
  let target ← ExceptT.mk (pure (Target.parse location))
  let buffer ← loadBuffer environment settings target.path
  return (buffer, target.position)

/-- The report on a cursor. Following its receiver is logged. -/
def describe (cursor : Cursor) : Task Inspection := do
  if let some trail := cursor.receiverTrail then
    modify (· ++ trailEvents trail)
  return .ofCursor cursor

theorem offsetOfLocation_eq (environment : Environment) (settings : Settings)
    (location : String) :
    offsetOfLocation environment settings location = (do
      let found ← locate environment settings location
      let offset ← ExceptT.mk (pure (found.1.index.offsetOf found.2))
      return ⟨.ofPosition found.2, offset⟩) := by
  simp [offsetOfLocation, locate]

theorem inspect_eq (environment : Environment) (settings : Settings) (location : String) :
    inspect environment settings location = (do
      let found ← locate environment settings location
      let cursor ← ExceptT.mk (pure (found.1.cursorAtPosition found.2))
      describe cursor) := by
  simp only [inspect, locate, bind_assoc, pure_bind]
  rfl

theorem locate_after {location : String} {position : Position}
    (hparse : Target.parse location = .ok ⟨path, position⟩)
    (hload : (loadBuffer environment settings path).after [] = (.ok buffer, events)) :
    (locate environment settings location).after [] = (.ok (buffer, position), events) := by
  simp only [locate, Task.after_bind, Task.after_result, hparse, hload, Task.after_pure]

theorem describe_after (cursor : Cursor) (events : List Event) :
    ∃ logged, (describe cursor).after events = (.ok (.ofCursor cursor), logged) := by
  unfold describe
  cases cursor.receiverTrail with
  | none => exact ⟨events, rfl⟩
  | some trail => exact ⟨events ++ trailEvents trail, rfl⟩

/-- An offset has its position reported. -/
theorem answer_offset
    (hload : (loadBuffer environment settings path).after [] = (.ok buffer, events))
    {offset : Nat} (hoffset : offset ≤ buffer.size) (json : Bool) :
    (answer environment settings (.position path (some offset) json)).outcome =
      (.ok (Conversion.render ⟨.ofPosition (buffer.index.lineColumn offset), offset⟩
        (formatFor json settings)), events) := by
  have hposition : buffer.index.positionOf offset = .ok (buffer.index.lineColumn offset) :=
    Index.positionOf_of_le hoffset
  simp only [answer, positionOfOffset, Task.outcome_eq_after, Task.after_bind, hload,
    Task.after_result, hposition, Task.after_pure]

section Located

variable {location : String} {position : Position}

/-- A position has its offset reported. -/
theorem answer_position
    (hlocate : (locate environment settings location).after [] = (.ok (buffer, position), events))
    {offset : Nat} (hoffset : buffer.index.offsetOf position = .ok offset) (json : Bool) :
    (answer environment settings (.position location none json)).outcome =
      (.ok (Conversion.render ⟨.ofPosition position, offset⟩ (formatFor json settings)),
        events) := by
  simp only [answer, offsetOfLocation_eq, Task.outcome_eq_after, Task.after_bind, hlocate,
    Task.after_result, hoffset, Task.after_pure]

/-- The cursor at a position is reported on. -/
theorem answer_inspect
    (hlocate : (locate environment settings location).after [] = (.ok (buffer, position), events))
    {cursor : Cursor} (hcursor : buffer.cursorAtPosition position = .ok cursor) (json : Bool) :
    ∃ logged, (answer environment settings (.inspect location json)).outcome =
      (.ok ((Inspection.ofCursor cursor).render (formatFor json settings)), logged) := by
  obtain ⟨logged, hdescribe⟩ := describe_after cursor events
  refine ⟨logged, ?_⟩
  simp only [answer, inspect_eq, Task.outcome_eq_after, Task.after_bind, hlocate,
    Task.after_result, hcursor, hdescribe, Task.after_pure]

/-- Where no buffer is loaded, both commands fail alike. -/
theorem answer_unlocated {failure : Failure}
    (hlocate : (locate environment settings location).after [] = (.error failure, events))
    (json : Bool) :
    (answer environment settings (.position location none json)).outcome =
        (.error failure, events) ∧
      (answer environment settings (.inspect location json)).outcome =
        (.error failure, events) := by
  constructor
  · simp only [answer, offsetOfLocation_eq, Task.outcome_eq_after, Task.after_bind, hlocate]
  · simp only [answer, inspect_eq, Task.outcome_eq_after, Task.after_bind, hlocate]

/-- Where the buffer has no such position, both commands fail alike. -/
theorem answer_outside {failure : Failure}
    (hlocate : (locate environment settings location).after [] = (.ok (buffer, position), events))
    (hoffset : buffer.index.offsetOf position = .error failure) (json : Bool) :
    (answer environment settings (.position location none json)).outcome =
        (.error failure, events) ∧
      (answer environment settings (.inspect location json)).outcome =
        (.error failure, events) := by
  have hcursor : buffer.cursorAtPosition position = .error failure := by
    rw [Buffer.cursorAtPosition, hoffset]
    rfl
  constructor
  · simp only [answer, offsetOfLocation_eq, Task.outcome_eq_after, Task.after_bind, hlocate,
      Task.after_result, hoffset]
  · simp only [answer, inspect_eq, Task.outcome_eq_after, Task.after_bind, hlocate,
      Task.after_result, hcursor]

theorem cursorAtPosition_eq_ok {offset : Nat}
    (hoffset : buffer.index.offsetOf position = .ok offset) :
    ∃ cursor, buffer.cursorAtPosition position = .ok cursor ∧ cursor.buffer = buffer ∧
      cursor.offset = offset := by
  have hle : offset ≤ buffer.size := by
    rw [buffer.index_eq] at hoffset
    rw [Buffer.size, buffer.index_eq]
    exact Index.le_size_of_offsetOf hoffset
  refine ⟨⟨buffer, offset, hle⟩, ?_, rfl, rfl⟩
  rw [Buffer.cursorAtPosition, hoffset]
  exact dif_pos hle

end Located

end Answers

namespace Outcome

/-- A run ends well and prints a text. -/
def Prints (outcome : Outcome) (output : String) : Prop :=
  ∃ events, outcome = .done events output

/-- If a run does not end well, it ends with an exit code and prints nothing. -/
def FailsOnlyWith (outcome : Outcome) (code : Nat) : Prop :=
  outcome.exitCode ≠ 0 → outcome.exitCode = code ∧ outcome.standardOutput = ""

/-- Two runs come to the same end: both answer, or both fail for one reason. -/
inductive Agree : Outcome → Outcome → Prop
  | done (events others : List Event) (output another : String) :
      Agree (.done events output) (.done others another)
  | failed (events : List Event) (failure : Failure) :
      Agree (.failed events failure) (.failed events failure)

end Outcome

section Agreement

variable (environment : Environment) (settings : Settings) (path : String) (buffer : Buffer)
  (json : Bool)

/-- All commands report one offset and one location for each other. The conversions print just
these two, and the report on the cursor shows them among other facts. -/
structure ReportsAlike (offset : Nat) (location : Location) : Prop where
  position_of_offset : (run environment (call "position" json [path, toString offset])).Prints
    (placeText location offset (formatFor json settings))
  offset_of_location :
    (run environment (call "position" json [path ++ ":" ++ location.text])).Prints
      (placeText location offset (formatFor json settings))
  inspection : ∃ cursor, cursor.buffer = buffer ∧
    (run environment (call "inspect" json [path ++ ":" ++ location.text])).Prints
      ((Inspection.ofCursor cursor).render (formatFor json settings)) ∧
    (Inspection.ofCursor cursor).offset = offset ∧
    (Inspection.ofCursor cursor).location = location ∧
    ShowsPlace location offset ((Inspection.ofCursor cursor).render (formatFor json settings))
      (formatFor json settings)

/-- The commands agree about a file. Each offset has a location that leads back to it, all
locations are answered or refused alike, and a run that fails prints nothing. A number of more
than 64 bits is no offset, so that no command is called with it. -/
structure CommandsAgree : Prop where
  reports : ∀ offset ≤ buffer.text.length, ReportsAlike environment settings path buffer json
    offset (.ofPosition (buffer.index.lineColumn offset))
  agree : ∀ line column, (run environment (call "position" json [located path line column])).Agree
    (run environment (call "inspect" json [located path line column]))
  failed_at_location : ∀ command ∈ ["inspect", "position"], ∀ line column,
    (run environment (call command json [located path line column])).FailsOnlyWith 1
  failed_at_offset : ∀ offset,
    (run environment (call "position" json [path, toString offset])).FailsOnlyWith
      (if offset < UInt64.size then 1 else 2)

end Agreement

section Runs

variable {environment : Environment} {settings : Settings} {path : String}

theorem parse?_position_offset (hvalue : IsValue path) (offset : Nat) (json : Bool) :
    Invocation.parse? (call "position" json [path, toString offset]) =
      if offset < UInt64.size then some (.answer (.position path (some offset) json))
      else none := by
  have hvalues : ∀ value ∈ [path, toString offset], IsValue value := by
    simp only [List.forall_mem_cons, hvalue, isValue_toString offset, true_and]
    simp
  have hrequest : Request.ofSubcommand? "position" ⟨[path, toString offset], json.toNat⟩ =
      (offset? (toString offset)).map fun offset => .position path (some offset) json := by
    cases json <;> rfl
  rw [parse?_call (by decide) hvalues, hrequest, offset?_toString]
  split <;> rfl

theorem parse?_position {location : String} (hvalue : IsValue location) (json : Bool) :
    Invocation.parse? (call "position" json [location]) =
      some (.answer (.position location none json)) := by
  rw [parse?_call (by decide) (by simpa using hvalue)]
  cases json <;> rfl

theorem parse?_inspect {location : String} (hvalue : IsValue location) (json : Bool) :
    Invocation.parse? (call "inspect" json [location]) =
      some (.answer (.inspect location json)) := by
  rw [parse?_call (by decide) (by simpa using hvalue)]
  cases json <;> rfl

/-- Whatever location is asked about, both commands answer, or both fail for one reason. -/
theorem run_agree (hsettings : loadSettings environment = .ok settings) {location : String}
    (hvalue : IsValue location) (json : Bool) :
    (run environment (call "position" json [location])).Agree
      (run environment (call "inspect" json [location])) := by
  rw [run_eq_conclude hsettings (parse?_position hvalue json),
    run_eq_conclude hsettings (parse?_inspect hvalue json)]
  cases hlocate : (locate environment settings location).after [] with
  | mk result events =>
      cases result with
      | error failure =>
          obtain ⟨hposition, hinspect⟩ := answer_unlocated hlocate json
          rw [hposition, hinspect]
          exact .failed _ failure
      | ok found =>
          obtain ⟨buffer, position⟩ := found
          cases hoffset : buffer.index.offsetOf position with
          | error failure =>
              obtain ⟨hposition, hinspect⟩ := answer_outside hlocate hoffset json
              rw [hposition, hinspect]
              exact .failed _ failure
          | ok offset =>
              obtain ⟨cursor, hcursor, -⟩ := cursorAtPosition_eq_ok hoffset
              obtain ⟨logged, hinspect⟩ := answer_inspect hlocate hcursor json
              rw [answer_position hlocate hoffset json, hinspect]
              exact .done _ _ _ _

/-- A run for a request fails with the exit code 1 only. -/
theorem failsOnlyWith_of_parse? (hsettings : loadSettings environment = .ok settings)
    {arguments : List String} {request : Request}
    (hparse : Invocation.parse? arguments = some (.answer request)) :
    (run environment arguments).FailsOnlyWith 1 := by
  rw [run_eq_conclude hsettings hparse, conclude]
  cases (answer environment settings request).outcome.1 with
  | error failure => exact fun _ => ⟨rfl, rfl⟩
  | ok output => exact absurd rfl

theorem isValue_located (hvalue : IsValue path) (hne : path ≠ "") (line column : String) :
    IsValue (located path line column) := by
  rw [located, String.append_assoc, String.append_assoc, String.append_assoc]
  exact hvalue.append hne _

theorem failed_at_offset (hsettings : loadSettings environment = .ok settings)
    (hvalue : IsValue path) (json : Bool) (offset : Nat) :
    (run environment (call "position" json [path, toString offset])).FailsOnlyWith
      (if offset < UInt64.size then 1 else 2) := by
  have hparse := parse?_position_offset hvalue offset json
  split at hparse
  next hbits =>
    rw [if_pos hbits]
    exact failsOnlyWith_of_parse? hsettings hparse
  next hlarge =>
    rw [if_neg hlarge, run, hparse]
    exact fun _ => ⟨rfl, rfl⟩

theorem failed_at_location (hsettings : loadSettings environment = .ok settings)
    {location : String} (hvalue : IsValue location) (json : Bool) :
    ∀ command ∈ ["inspect", "position"],
      (run environment (call command json [location])).FailsOnlyWith 1 := by
  simp only [List.forall_mem_cons]
  exact ⟨failsOnlyWith_of_parse? hsettings (parse?_inspect hvalue json),
    failsOnlyWith_of_parse? hsettings (parse?_position hvalue json), by simp⟩

/-- What a run for an offset reports is a location that leads both other commands back to
the offset. -/
theorem reportsAlike_of_le {buffer : Buffer} {events : List Event}
    (hsettings : loadSettings environment = .ok settings)
    (hload : (loadBuffer environment settings path).after [] = (.ok buffer, events))
    (hfeed : '\n' ∉ path.toList) (hvalue : IsValue path) {offset : Nat}
    (hoffset : offset ≤ buffer.size) (json : Bool) :
    ReportsAlike environment settings path buffer json offset
      (.ofPosition (buffer.index.lineColumn offset)) := by
  have hne := path_ne_of_loadBuffer hload
  have hsize := size_lt_of_loadBuffer (limited_of_loadSettings hsettings) hload
  have hfits : ∀ {n}, n ≤ buffer.size → n + 1 < UInt64.size := fun hle =>
    Nat.lt_of_le_of_lt (Nat.succ_le_succ hle) (Nat.lt_trans (Nat.succ_lt_succ hsize) (by decide))
  have hbits : offset < UInt64.size := Nat.lt_of_succ_lt (hfits hoffset)
  obtain ⟨⟨hline, hcolumn⟩, hback⟩ : ((buffer.index.lineColumn offset).line ≤ buffer.size ∧
      (buffer.index.lineColumn offset).column ≤ buffer.size) ∧
      buffer.index.offsetOf (buffer.index.lineColumn offset) = .ok offset := by
    rw [Buffer.size, buffer.index_eq] at hoffset ⊢
    exact ⟨Index.lineColumn_le_size hoffset, Index.offsetOf_lineColumn hoffset⟩
  have hlocate :=
    locate_after (Target.parse_location hne hfeed (hfits hline) (hfits hcolumn)) hload
  have hlocated := hvalue.append hne
    (":" ++ (Location.ofPosition (buffer.index.lineColumn offset)).text)
  rw [← String.append_assoc] at hlocated
  constructor
  case position_of_offset =>
    have hparse := parse?_position_offset hvalue offset json
    rw [if_pos hbits] at hparse
    rw [run_eq_conclude hsettings hparse, answer_offset hload hoffset json, Conversion.render_eq]
    exact ⟨_, rfl⟩
  case offset_of_location =>
    rw [run_eq_conclude hsettings (parse?_position hlocated json), answer_position hlocate hback json,
      Conversion.render_eq]
    exact ⟨_, rfl⟩
  case inspection =>
    obtain ⟨cursor, hcursor, rfl, rfl⟩ := cursorAtPosition_eq_ok hback
    obtain ⟨logged, hinspect⟩ := answer_inspect hlocate hcursor json
    refine ⟨cursor, rfl, ?_, rfl, rfl, Inspection.showsPlace (.ofCursor cursor) _⟩
    rw [run_eq_conclude hsettings (parse?_inspect hlocated json), hinspect]
    exact ⟨_, rfl⟩

/-- The commands agree about every file that is loaded, also where its path itself looks
like a location. -/
theorem commandsAgree_of_loadBuffer {buffer : Buffer}
    (hsettings : loadSettings environment = .ok settings)
    (hload : (loadBuffer environment settings path).outcome.1 = .ok buffer)
    (hfeed : '\n' ∉ path.toList) (hvalue : IsValue path) (json : Bool) :
    CommandsAgree environment settings path buffer json := by
  obtain ⟨events, hloaded⟩ : ∃ events,
      (loadBuffer environment settings path).after [] = (.ok buffer, events) :=
    ⟨_, Prod.ext hload rfl⟩
  have hne := path_ne_of_loadBuffer hloaded
  constructor
  case reports =>
    intro offset hoffset
    apply reportsAlike_of_le hsettings hloaded hfeed hvalue
    rw [Buffer.size, buffer.index_eq, Index.size_ofString, String.length_toList]
    exact hoffset
  case agree =>
    intro line column
    exact run_agree hsettings (isValue_located hvalue hne line column) json
  case failed_at_location =>
    intro command hcommand line column
    have hlocated := isValue_located hvalue hne line column
    exact failed_at_location hsettings hlocated json command hcommand
  case failed_at_offset => exact failed_at_offset hsettings hvalue json

/-- A workspace with a single file, whose path looks like a location. -/
def colonWorkspace : Environment where
  find path := if path = "lib:1:2/a.rb" then .file "x = 1\nx.to_s".toByteArray else .missing
  parse _ := .nothing

theorem commandsAgree_over_colons :
    ∃ buffer, buffer.text = "x = 1\nx.to_s" ∧
      loadSettings colonWorkspace = .ok .default ∧
      (loadBuffer colonWorkspace .default "lib:1:2/a.rb").outcome.1 = .ok buffer ∧
      '\n' ∉ "lib:1:2/a.rb".toList ∧ IsValue "lib:1:2/a.rb" ∧
      CommandsAgree colonWorkspace .default "lib:1:2/a.rb" buffer false := by
  have hsettings : loadSettings colonWorkspace = .ok .default := rfl
  have hload := @loadBuffer_of_file colonWorkspace .default "lib:1:2/a.rb" .ruby rfl
    "x = 1\nx.to_s" rfl (by decide)
  have hfeed : '\n' ∉ "lib:1:2/a.rb".toList := by decide
  have hvalue : IsValue "lib:1:2/a.rb" := by decide
  exact ⟨_, rfl, hsettings, hload, hfeed, hvalue,
    commandsAgree_of_loadBuffer hsettings hload hfeed hvalue false⟩

end Runs

end Caret.Command
