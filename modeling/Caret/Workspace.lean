import Caret.Language

/-! # Files that a command can read -/

namespace Caret

/-- What a path leads to. The file system may also refuse to follow it, and tells
why. -/
inductive Found where
  | missing
  | refused (reason : String)
  | directory (size : Nat)
  | file (content : ByteArray)

namespace Found

/-- A part of the path before its end is a file. -/
def notADirectory : Found :=
  refused "Not a directory (os error 20)"

/-- The size in bytes, if the path leads anywhere. -/
def size? : Found → Option Nat
  | file content => some content.size
  | directory size => some size
  | missing | refused _ => none

end Found

/-- A directory with files and empty directories below it. Paths are given by
their parts. Every directory reports the same size. -/
structure Workspace where
  files : List (List String × ByteArray)
  directories : List (List String)
  directorySize : Nat

namespace Workspace

/-- A workspace whose files and directories are given by their paths. -/
def ofPaths (files : List (String × ByteArray)) (directories : List String)
    (directorySize : Nat) : Workspace :=
  let partsOf := fun path => (Path.parts path).map String.ofList
  ⟨files.map fun (path, content) => (partsOf path, content), directories.map partsOf, directorySize⟩

/-- What is found at the end of a path without detours. -/
def entry (workspace : Workspace) (place : List String) : Found :=
  match workspace.files.lookup place with
  | some content => .file content
  | none =>
      let paths := workspace.files.map (·.1) ++ workspace.directories
      if place.isEmpty || paths.any place.isPrefixOf then .directory workspace.directorySize
      else .missing

/-- Follow the parts of a path from a place in the workspace. The parent of the
workspace is not part of it. -/
def walk (workspace : Workspace) (place : List String) : List (List Char) → Found
  | [] => workspace.entry place
  | part :: rest =>
      match workspace.entry place with
      | .file _ => .notADirectory
      | .directory _ =>
          if Path.isHere part then workspace.walk place rest
          else if part = ['.', '.'] then
            if place.isEmpty then .missing else workspace.walk place.dropLast rest
          else workspace.walk (place ++ [String.ofList part]) rest
      | other => other

/-- What a path leads to. Only relative paths lead to anything. -/
def find (workspace : Workspace) (path : String) : Found :=
  match Path.parts path with
  | [] :: _ => .missing
  | parts => workspace.walk [] parts

end Workspace

end Caret
