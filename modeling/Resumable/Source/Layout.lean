/-
  Resumable.Source.Layout — text pieces and the breaks between them.

  Source text is laid out before it is written: a layout is a list of text pieces and line
  breaks, each break knowing how deep the next line is nested.  Writing a layout compactly turns
  every break into one space; writing it indented turns it into a new line.  Both therefore show
  the same pieces in the same order.
-/
namespace Resumable.Source

/-- A piece of laid out text. -/
inductive Piece where
  | text (s : String)
  /-- A line break before a line at the given depth. -/
  | line (depth : Nat)
  deriving DecidableEq, Repr

/-- Laid out text. -/
abbrev Layout := List Piece

/-- How a layout is written. -/
structure Style where
  /-- What one level of nesting is indented by. -/
  indent : String := "    "
  /-- Whether everything goes on one line. -/
  compact : Bool := false
  deriving DecidableEq, Repr

namespace Style

/-- Everything on one line. -/
def oneLine : Style := { compact := true }

/-- A style in which an empty indentation stands for the usual four spaces. -/
def of (indent : String) (compact : Bool) : Style :=
  { indent := if indent.isEmpty then "    " else indent, compact }

/-- One level of indentation, `depth` times. -/
def margin (st : Style) : Nat → String
  | 0 => ""
  | n + 1 => st.indent ++ st.margin n

/-- How one piece is written. -/
def piece (st : Style) : Piece → String
  | .text s => s
  | .line depth => if st.compact then " " else "\n" ++ st.margin depth

/-- A layout as text. -/
def write (st : Style) : Layout → String
  | [] => ""
  | p :: rest => st.piece p ++ st.write rest

end Style

namespace Layout

/-- A layout of one piece of text. -/
def ofText (s : String) : Layout := [.text s]

/-- Whether the text starts with the given character. -/
def startsWith (c : Char) : Layout → Bool
  | [] => false
  | .line _ :: _ => false
  | .text s :: rest =>
      match s.toList with
      | [] => startsWith c rest
      | d :: _ => d == c

/-- Layouts one after another with a text between neighbours. -/
def joined (between : String) : List Layout → Layout
  | [] => []
  | [l] => l
  | l :: rest => l ++ ofText between ++ joined between rest

/-- A layout in parentheses. -/
def parens (l : Layout) : Layout := ofText "(" ++ l ++ ofText ")"

/-- Lines one below the other at one depth. -/
def lines (depth : Nat) : List Layout → Layout
  | [] => []
  | [l] => l
  | l :: rest => l ++ [.line depth] ++ lines depth rest

/-- Lines at one depth, each after a break of its own. -/
def hanging (depth : Nat) : List Layout → Layout
  | [] => []
  | l :: rest => .line depth :: l ++ hanging depth rest

/-- Lines in braces, nested one level below `depth`; no lines leave the braces empty. -/
def braced (depth : Nat) (items : List Layout) : Layout :=
  if items.isEmpty then ofText "\x7b\x7d"
  else ofText "\x7b" ++ hanging (depth + 1) items ++ [.line depth] ++ ofText "\x7d"

end Layout

end Resumable.Source
