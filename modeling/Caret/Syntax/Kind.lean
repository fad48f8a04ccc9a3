/-! # Kinds of nodes -/

namespace Caret.Syntax

/-- The class of the object that a literal evaluates to. -/
def literalClass? (kind : String) : Option String :=
  match kind with
  | "array" | "string_array" | "symbol_array" => some "Array"
  | "character" | "chained_string" | "heredoc_beginning" | "string" => some "String"
  | "complex" => some "Complex"
  | "delimited_symbol" | "simple_symbol" => some "Symbol"
  | "false" => some "FalseClass"
  | "float" => some "Float"
  | "hash" => some "Hash"
  | "integer" => some "Integer"
  | "lambda" => some "Proc"
  | "nil" => some "NilClass"
  | "range" => some "Range"
  | "rational" => some "Rational"
  | "regex" => some "Regexp"
  | "true" => some "TrueClass"
  | _ => none

/-- Kinds that start afresh with no local variables. -/
def isGate (kind : String) : Bool :=
  kind ∈ ["class", "method", "module", "program", "singleton_class", "singleton_method"]

/-- Kinds with local variables of their own that still see those around them. -/
def isBlock (kind : String) : Bool :=
  kind ∈ ["block", "do_block", "lambda"]

/-- Kinds that name a place for constants. -/
def isNamespace (kind : String) : Bool :=
  kind ∈ ["class", "module"]

def isMethod (kind : String) : Bool :=
  kind ∈ ["method", "singleton_method"]

def isAssignment (kind : String) : Bool :=
  kind ∈ ["assignment", "operator_assignment"]

/-- Kinds whose signature is their own text. -/
def isName (kind : String) : Bool :=
  kind ∈ ["class_variable", "constant", "global_variable", "identifier", "instance_variable",
    "scope_resolution", "self"]

/-- Kinds whose content is text and not code. An interpolation is not among them,
so the code inside it is code. -/
def isLiteralText (kind : String) : Bool :=
  kind ∈ ["bare_string", "delimited_symbol", "escape_sequence", "heredoc_body", "heredoc_content",
    "regex", "string", "string_array", "string_content", "subshell", "symbol_array"]

end Caret.Syntax
