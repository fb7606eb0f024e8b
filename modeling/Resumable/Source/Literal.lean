/-
  Resumable.Source.Literal — string literals and object keys of the source text.

  A literal is written in double quotes on one line: the quote, the backslash and every control
  character are escaped, and so are the two line separators U+2028 and U+2029, which would end
  the line inside a literal.
-/
import Resumable.Text.Bytes

namespace Resumable.Source

/-- How one character is written inside a double-quoted literal. -/
def literalChar (c : Char) : List Char :=
  match c with
  | '"' => ['\\', '"']
  | '\\' => ['\\', '\\']
  | '\n' => ['\\', 'n']
  | '\r' => ['\\', 'r']
  | '\t' => ['\\', 't']
  | '\x08' => ['\\', 'b']
  | '\x0c' => ['\\', 'f']
  | c =>
      if c.toNat < 0x20 || c.toNat == 0x2028 || c.toNat == 0x2029 then
        '\\' :: 'u' :: Text.hexPadded 4 c.toNat
      else [c]

/-- A string literal in double quotes. -/
def quote (s : String) : String :=
  String.ofList ('"' :: s.toList.flatMap literalChar ++ ['"'])

/-- Whether a character may stand in an identifier after its first character. -/
def isIdentifierChar (c : Char) : Bool :=
  c == '$' || c == '_' || c.isAlphanum

/-- Whether a text is an identifier of ASCII letters, digits, `$` and `_`. -/
def isIdentifier (s : String) : Bool :=
  match s.toList with
  | [] => false
  | c :: rest => isIdentifierChar c && !c.isDigit && rest.all isIdentifierChar

/-- An object key: bare if it is an identifier, a literal otherwise. -/
def key (s : String) : String :=
  if isIdentifier s then s else quote s

end Resumable.Source
