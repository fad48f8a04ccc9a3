import Caret.Failure
import Caret.Report.Conversion

/-! # Diagnostics

A diagnostic tells in Markdown what went wrong and, where that is known, how to
mend it.
-/

namespace Caret.Failure

/-- A heading and the paragraphs below it. -/
def headed (heading : String) (paragraphs : List String) : String :=
  heading ++ "\n" ++ String.join (paragraphs.map fun paragraph => "\n" ++ paragraph ++ "\n")

/-- The failure with advice. Positions are counted from one. -/
def markdown : Failure → String
  | fileNotFound path =>
      headed "# Error: File Not Found" ["`" ++ path ++ "` does not exist."]
  | fileTooLarge path size limit =>
      headed "# Error: File Too Large"
          ["`" ++ path ++ "` is " ++ toString size ++ " bytes (max " ++ toString limit ++ ")."] ++
        "\n" ++
        headed "## Fix"
          ["Raise the limit in `.rbcursor.toml`:", "    max_file_size = " ++ toString size]
  | invalidLocation input reason =>
      headed "# Error: Invalid Location" ["`" ++ input ++ "`: " ++ reason] ++ "\n" ++
        headed "## Fix"
          ["Locations are `path:line:column`, both 1-based:",
            "    rbcursor inspect app/models/user.rb:12:8"]
  | io reason => headed "# Error: I/O" [reason]
  | json reason => headed "# Error: JSON Serialization" [reason]
  | offsetOutOfBounds length offset =>
      headed "# Error: Offset Out Of Bounds"
        ["Offset " ++ toString offset ++ " is past the end of the buffer (" ++ toString length ++
          " characters)."]
  | parseFailed path reason =>
      headed "# Error: Parse Failed" ["Could not parse `" ++ path ++ "`: " ++ reason]
  | positionOutOfBounds position =>
      let location := Report.Location.ofPosition position
      headed "# Error: Position Out Of Bounds"
        ["Line " ++ toString location.line ++ ", column " ++ toString location.column ++
          " does not exist in the file."]
  | toml reason =>
      headed "# Error: Invalid TOML" [reason] ++ "\n" ++
        headed "## Fix"
          ["Check `.rbcursor.toml`. Known keys: `format`, `log_level`, `max_file_size`."]
  | unsupportedLanguage path =>
      headed "# Error: Unsupported Language" ["`" ++ path ++ "` is not a Ruby file."] ++ "\n" ++
        headed "## Supported files"
          ["- `.rb`, `.rbi`, `.rake`, `.ru`, `.gemspec`\n" ++
            "- `Gemfile`, `Guardfile`, `Rakefile`, `Steepfile`"]

end Caret.Failure
