import Caret.Failure
import Caret.Text.Split

/-! # Paths and the languages of files

A path is cut at its slashes. Empty parts and parts that stand for the directory
itself do not change where the path leads. The name of a file tells its language.
-/

namespace Caret

namespace Path

/-- The parts of a path between its slashes. -/
def parts (path : String) : List (List Char) :=
  path.toList.splitOn '/'

/-- Whether a part leads to the directory it is looked up in. -/
def isHere (part : List Char) : Bool :=
  part = [] || part = ['.']

/-- The name of the file that a path leads to. A path that ends by going up has
none. -/
def fileName? (path : String) : Option (List Char) :=
  ((parts path).filter (!isHere ·)).getLast?.filter (· ≠ ['.', '.'])

/-- What follows the last dot of a file name. A dot in front of the whole name
begins no extension. -/
def extension? (name : List Char) : Option (List Char) :=
  match Text.splitLast '.' name with
  | some (_ :: _, after) => some after
  | _ => none

end Path

inductive Language where
  | ruby
deriving DecidableEq, Repr

namespace Language

def name : Language → String
  | ruby => "ruby"

/-- Names of Ruby files that need no extension. -/
def rubyFileNames : List String :=
  ["Gemfile", "Guardfile", "Rakefile", "Steepfile"]

def rubyExtensions : List String :=
  ["gemspec", "rake", "rb", "rbi", "ru"]

/-- The language that the name of a file tells. -/
def ofPath (path : String) : Except Failure Language :=
  let name := Path.fileName? path
  let extension := name.bind Path.extension?
  if extension.any (fun text => String.ofList text ∈ rubyExtensions) ||
      name.any (fun text => String.ofList text ∈ rubyFileNames) then
    .ok ruby
  else
    .error (.unsupportedLanguage path)

end Language

end Caret
