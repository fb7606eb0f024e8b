/-
  Resumable.Toml.Value — settings data and the keys that name it.

  A document is a table of named values.  Numbers and moments in time keep the way they were
  written; a list of tables built by `[[…]]` headers is apart from a list written in brackets,
  because only the former can still grow.
-/
import Resumable.Text.Bytes

namespace Resumable.Toml

/-- A key: the names from the root of a document down. -/
abbrev Key := List String

/-- A value. -/
inductive Value where
  | text (value : String)
  | flag (value : Bool)
  | integer (value : Int)
  | decimal (spelling : String)
  | moment (spelling : String)
  | list (items : List Value)
  | table (entries : List (String × Value))
  /-- Tables opened one after the other; only the last of them takes further entries. -/
  | tables (items : List (List (String × Value)))
  deriving Repr, Inhabited

/-! ## §1. The text of a key. -/

/-- Whether a character may stand in a key without quotes. -/
def isBare (c : Char) : Bool :=
  ('A' ≤ c && c ≤ 'Z') || ('a' ≤ c && c ≤ 'z') || c.isDigit || c == '_' || c == '-'

/-- A character inside a quoted key. -/
def keyChar (c : Char) : List Char :=
  if c == '"' then ['\\', '"']
  else if c == '\\' then ['\\', '\\']
  else if c == '\n' then ['\\', 'n']
  else if c == '\r' then ['\\', 'r']
  else if c == '\t' then ['\\', 't']
  else if c.toNat == 0x08 then ['\\', 'b']
  else if c.toNat == 0x0C then ['\\', 'f']
  else if c.toNat < 0x20 || c.toNat == 0x7F then '\\' :: 'u' :: Text.hexPadded 4 c.toNat
  else [c]

/-- One name of a key, quoted unless it is bare. -/
def nameText (name : String) : String :=
  if !name.isEmpty && name.toList.all isBare then name
  else String.ofList ('"' :: name.toList.flatMap keyChar ++ ['"'])

/-- The text of a key: its names joined by dots. -/
def Key.toText (key : Key) : String := ".".intercalate (key.map nameText)

end Resumable.Toml
