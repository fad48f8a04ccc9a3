import Caret.Text.Quoted

/-! # JSON on several lines -/

namespace Caret

/-- The values that reports are made of. The members of an object keep their
order. -/
inductive Json where
  | null
  | number (value : Nat)
  | string (value : String)
  | array (items : List Json)
  | object (members : List (String × Json))

namespace Json

/-- A character as it is written in a string. Only what must be escaped is. -/
def escapeChar (c : Char) : List Char :=
  match c with
  | '"' => ['\\', '"']
  | '\\' => ['\\', '\\']
  | '\x08' => ['\\', 'b']
  | '\x0c' => ['\\', 'f']
  | '\n' => ['\\', 'n']
  | '\r' => ['\\', 'r']
  | '\t' => ['\\', 't']
  | _ =>
      if c.toNat < 16 then ['\\', 'u', '0', '0', '0'] ++ Text.hexDigits c.toNat
      else if c.toNat < 32 then ['\\', 'u', '0', '0'] ++ Text.hexDigits c.toNat
      else [c]

def quote (text : String) : String :=
  String.ofList ('"' :: (text.toList.flatMap escapeChar ++ ['"']))

/-- A new line at some level of nesting, with two blanks for each level. -/
def newline (level : Nat) : String :=
  String.ofList ('\n' :: List.replicate (2 * level) ' ')

mutual

/-- The value as it stands at a level of nesting. -/
def renderAt (level : Nat) : Json → String
  | null => "null"
  | number value => toString value
  | string value => quote value
  | array [] => "[]"
  | array (item :: rest) =>
      "[" ++ newline (level + 1) ++ renderAt (level + 1) item ++ renderItems (level + 1) rest ++
        newline level ++ "]"
  | object [] => "\x7b\x7d"
  | object ((key, value) :: rest) =>
      "\x7b" ++ newline (level + 1) ++ quote key ++ ": " ++ renderAt (level + 1) value ++
        renderMembers (level + 1) rest ++ newline level ++ "\x7d"

def renderItems (level : Nat) : List Json → String
  | [] => ""
  | item :: rest => "," ++ newline level ++ renderAt level item ++ renderItems level rest

def renderMembers (level : Nat) : List (String × Json) → String
  | [] => ""
  | (key, value) :: rest =>
      "," ++ newline level ++ quote key ++ ": " ++ renderAt level value ++ renderMembers level rest

end

/-- The value on as many lines as it has items, without a line feed at its end. -/
def render (json : Json) : String :=
  json.renderAt 0

/-- A text, or null where there is none. -/
def ofText? : Option String → Json
  | some text => string text
  | none => null

end Json

end Caret
