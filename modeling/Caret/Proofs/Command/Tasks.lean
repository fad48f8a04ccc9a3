import Caret.Command.Run
import Caret.Proofs.Settings.Limit
import Caret.Proofs.Text.Bytes

/-! # Tasks and the files they load

A task that is made of two ends as the second one does after what the first one has
logged, unless the first one fails. What is loaded is the text of a file of a known
language, and the settings bound its length.
-/

namespace Caret.Command

open Log

namespace Task

variable {α β : Type} {events logged : List Event}

/-- What a task comes to after some events. -/
def after (events : List Event) (task : Task α) : Except Failure α × List Event :=
  (ExceptT.run task).run events

theorem outcome_eq_after (task : Task α) : task.outcome = task.after [] := rfl

theorem after_bind (events : List Event) (task : Task α) (next : α → Task β) :
    (task >>= next).after events =
      match task.after events with
      | (.ok value, logged) => (next value).after logged
      | (.error failure, logged) => (.error failure, logged) := by
  unfold after ExceptT.run StateT.run
  simp only [bind, ExceptT.bind, ExceptT.mk, StateT.bind]
  cases task events with
  | mk result logged => cases result <;> rfl

theorem after_result (events : List Event) (result : Except Failure α) :
    after events (ExceptT.mk (pure result)) = (result, events) := rfl

theorem after_pure (events : List Event) (value : α) :
    after events (pure value) = (.ok value, events) := rfl

theorem after_log (events : List Event) (event : Event) :
    after events (log event) = (.ok (), events ++ [event]) := rfl

/-- What ends well has begun well. -/
theorem exists_of_after_bind {task : Task α} {next : α → Task β} {result : β}
    (hbind : (task >>= next).after events = (.ok result, logged)) :
    ∃ value between, task.after events = (.ok value, between) ∧
      (next value).after between = (.ok result, logged) := by
  rw [after_bind] at hbind
  split at hbind
  next value between htask => exact ⟨value, between, htask, hbind⟩
  next failure between htask => cases hbind

end Task

section Load

variable {environment : Environment} {settings : Settings} {path : String} {buffer : Buffer}
  {events logged : List Event}

/-- The text of a file that is read, parsed and logged. -/
def readBuffer (environment : Environment) (path : String) : Task Buffer := do
  let text ← ExceptT.mk (pure (readText path (environment.find path)))
  Task.log (loadedSource path text.utf8ByteSize)
  let buffer := Buffer.ofParsed text (environment.parse text)
  Task.log (mappedSymbols buffer.symbols.locals.length buffer.symbols.methods.length)
  if buffer.hasError then
    Task.log (sourceHasErrors buffer.comments.size)
    Task.log (bestEffort path)
  return buffer

theorem loadBuffer_eq (environment : Environment) (settings : Settings) (path : String) :
    loadBuffer environment settings path = (do
      let _ ← ExceptT.mk (pure (Language.ofPath path))
      if let some size := (environment.find path).size? then
        if settings.maxFileSize < size then
          throw (.fileTooLarge path size settings.maxFileSize)
      readBuffer environment path) := rfl

theorem readText_eq_ok {found : Found} {text : String} (hread : readText path found = .ok text) :
    found = .file text.toByteArray := by
  unfold readText at hread
  split at hread
  next => contradiction
  next => contradiction
  next => contradiction
  next content =>
    split at hread
    next read hutf =>
      obtain rfl := Except.ok.inj hread
      unfold String.fromUTF8? at hutf
      split at hutf
      next =>
        obtain rfl := Option.some.inj hutf
        rfl
      next => contradiction
    next => contradiction

theorem readBuffer_ok (hread : (readBuffer environment path).after events = (.ok buffer, logged)) :
    environment.find path = .file buffer.text.toByteArray ∧
      buffer = .ofParsed buffer.text (environment.parse buffer.text) := by
  obtain ⟨text, read, htext, hread⟩ := Task.exists_of_after_bind hread
  obtain ⟨-, loaded, -, hread⟩ := Task.exists_of_after_bind hread
  obtain ⟨-, mapped, -, hread⟩ := Task.exists_of_after_bind hread
  have hbuffer : buffer = .ofParsed text (environment.parse text) := by
    dsimp only at hread
    split at hread
    next =>
      obtain ⟨-, broken, -, hread⟩ := Task.exists_of_after_bind hread
      obtain ⟨-, warned, -, hread⟩ := Task.exists_of_after_bind hread
      exact (Except.ok.inj (Prod.mk.inj hread).1).symm
    next => exact (Except.ok.inj (Prod.mk.inj hread).1).symm
  obtain rfl : text = buffer.text := by rw [hbuffer]; rfl
  exact ⟨readText_eq_ok (Prod.mk.inj htext).1, hbuffer⟩

/-- A buffer is loaded from a file of a known language whose size is within the limit. -/
theorem loadBuffer_ok (hload : (loadBuffer environment settings path).after events =
      (.ok buffer, logged)) :
    (∃ language, Language.ofPath path = .ok language) ∧
      environment.find path = .file buffer.text.toByteArray ∧
      buffer.text.utf8ByteSize ≤ settings.maxFileSize ∧
      buffer = .ofParsed buffer.text (environment.parse buffer.text) := by
  rw [loadBuffer_eq] at hload
  obtain ⟨language, between, hlanguage, hload⟩ := Task.exists_of_after_bind hload
  refine ⟨⟨language, congrArg Prod.fst hlanguage⟩, ?_⟩
  dsimp only at hload
  split at hload
  next size hsize =>
    split at hload
    next hlarge =>
      obtain ⟨value, thrown, hthrow, -⟩ := Task.exists_of_after_bind hload
      cases hthrow
    next hsmall =>
      obtain ⟨hfile, hbuffer⟩ := readBuffer_ok hload
      rw [hfile] at hsize
      obtain rfl := Option.some.inj hsize
      exact ⟨hfile, Nat.le_of_not_lt hsmall, hbuffer⟩
  next hnone =>
    obtain ⟨hfile, hbuffer⟩ := readBuffer_ok hload
    rw [hfile] at hnone
    exact absurd rfl (hnone _)

/-- Every text in a file of a known language whose size is within the limit is loaded. -/
theorem loadBuffer_of_file {language : Language} (hlanguage : Language.ofPath path = .ok language)
    {text : String} (hfile : environment.find path = .file text.toByteArray)
    (hsize : text.utf8ByteSize ≤ settings.maxFileSize) :
    (loadBuffer environment settings path).outcome.1 =
      .ok (.ofParsed text (environment.parse text)) := by
  have hread : readText path (environment.find path) = .ok text := by
    have hutf : String.fromUTF8? text.toByteArray = some text := dif_pos text.isValidUTF8
    rw [hfile, readText, hutf]
  have hfound : (environment.find path).size? = some text.utf8ByteSize := by rw [hfile]; rfl
  rw [loadBuffer_eq, hfound]
  simp only [if_neg (Nat.not_lt_of_le hsize), Task.outcome_eq_after, Task.after_bind,
    Task.after_result, hlanguage, readBuffer, hread, Task.after_log]
  split
  next => rfl
  next => rfl

theorem limited_of_loadSettings (hsettings : loadSettings environment = .ok settings) :
    settings.Limited := by
  unfold loadSettings at hsettings
  split at hsettings
  next =>
    obtain rfl := Except.ok.inj hsettings
    exact Settings.limited_default
  next found hfound =>
    cases hread : readText Settings.fileName (environment.find Settings.fileName) with
    | error failure =>
        rw [hread] at hsettings
        contradiction
    | ok text =>
        rw [hread] at hsettings
        exact Settings.limited_of_parse hsettings

/-- The length of what is loaded is below half of what a count of 64 bits can hold. -/
theorem size_lt_of_loadBuffer (hlimited : settings.Limited)
    (hload : (loadBuffer environment settings path).after events = (.ok buffer, logged)) :
    buffer.size < 0x8000000000000000 := by
  obtain ⟨-, -, hbytes, -⟩ := loadBuffer_ok hload
  rw [Text.utf8ByteSize_eq] at hbytes
  have hlength := Text.length_le_utf8Length buffer.text.toList
  rw [Buffer.size, buffer.index_eq, Text.Index.size_ofString]
  exact Nat.lt_of_le_of_lt (Nat.le_trans hlength hbytes) hlimited

/-- The empty path leads to no file of a known language. -/
theorem path_ne_of_loadBuffer
    (hload : (loadBuffer environment settings path).after events = (.ok buffer, logged)) :
    path ≠ "" := by
  rintro rfl
  obtain ⟨⟨language, hlanguage⟩, -⟩ := loadBuffer_ok hload
  contradiction

end Load

end Caret.Command
