/-
  Resumable.Json.Value — JSON values and how they are written.

  Values are written with an indentation of two spaces a level and with the characters escaped
  that would mean something in a page: `<`, `>`, `&` and the two line separators.
-/
import Resumable.Text.Bytes

namespace Resumable.Json

/-- A JSON value.  The fields of an object keep their order and may repeat. -/
inductive Value where
  | null
  | bool (value : Bool)
  | number (text : String)
  | string (value : String)
  | array (items : List Value)
  | object (fields : List (String × Value))
  deriving Repr, Inhabited

/-- How a character is written inside a string. -/
def escape (c : Char) : List Char :=
  let unicode := ['\\', 'u'] ++ Text.hexPadded 4 c.toNat
  if c == '"' then ['\\', '"']
  else if c == '\\' then ['\\', '\\']
  else if c == '\n' then ['\\', 'n']
  else if c == '\r' then ['\\', 'r']
  else if c == '\t' then ['\\', 't']
  else if c.toNat == 0x08 then ['\\', 'b']
  else if c.toNat == 0x0C then ['\\', 'f']
  else if c.toNat < 0x20 || c == '<' || c == '>' || c == '&' then unicode
  else if c.toNat == 0x2028 || c.toNat == 0x2029 then unicode
  else [c]

/-- A string literal. -/
def quote (s : String) : List Char := '"' :: s.toList.flatMap escape ++ ['"']

/-- A new line at a depth. -/
def newline (depth : Nat) : List Char := '\n' :: List.replicate (2 * depth) ' '

namespace Value

mutual

/-- A value as text that starts at a depth. -/
def write (depth : Nat) : Value → List Char
  | null => "null".toList
  | bool true => "true".toList
  | bool false => "false".toList
  | number text => text.toList
  | string s => quote s
  | array [] => ['[', ']']
  | array (v :: rest) =>
      '[' :: newline (depth + 1) ++ write (depth + 1) v ++ writeItems (depth + 1) rest ++
        newline depth ++ [']']
  | object [] => ['{', '}']
  | object ((k, v) :: rest) =>
      '{' :: newline (depth + 1) ++ quote k ++ [':', ' '] ++ write (depth + 1) v ++
        writeFields (depth + 1) rest ++ newline depth ++ ['}']

/-- The items after the first one. -/
def writeItems (depth : Nat) : List Value → List Char
  | [] => []
  | v :: rest => ',' :: newline depth ++ write depth v ++ writeItems depth rest

/-- The fields after the first one. -/
def writeFields (depth : Nat) : List (String × Value) → List Char
  | [] => []
  | (k, v) :: rest =>
      ',' :: newline depth ++ quote k ++ [':', ' '] ++ write depth v ++ writeFields depth rest

end

/-- A value as text. -/
def toText (v : Value) : String := String.ofList (v.write 0)

end Value

end Resumable.Json
