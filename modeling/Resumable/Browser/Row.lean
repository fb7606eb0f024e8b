/-
  Resumable.Browser.Row — code as rows on a screen.

  Every instruction is a row, indented by its depth.  Control instructions have a row of their
  own, and a labelled row above each list in them that is not empty.
-/
import Resumable.Code.Basic

namespace Resumable.Browser

/-- A row. -/
structure Row where
  command : String
  text : String := ""
  depth : Nat
  async : Bool := false
  deriving DecidableEq, Repr, Inhabited

/-- Rows under a label, if there are any. -/
def labelled (label : String) (depth : Nat) (rows : List Row) : List Row :=
  if rows.isEmpty then [] else { command := label, depth } :: rows

mutual

/-- The rows of an instruction. -/
def rowsOf (depth : Nat) : Op → List Row
  | .leaf command code async => [{ command, text := code, depth, async }]
  | .branch cond yes no _ =>
      { command := "if", text := cond, depth } ::
        (labelled "then:" (depth + 1) (rowsOfAll (depth + 2) yes) ++
         labelled "else:" (depth + 1) (rowsOfAll (depth + 2) no))
  | .loop cond step body _ =>
      { command := "for", depth } ::
        (labelled "cond:" (depth + 1) (rowsOfAll (depth + 2) cond) ++
         labelled "step:" (depth + 1) (rowsOfAll (depth + 2) step) ++
         labelled "body:" (depth + 1) (rowsOfAll (depth + 2) body))
  | .defun name args code _ =>
      { command := "defun"
        text := name ++ "(" ++ ", ".intercalate (args.getD []) ++ ")"
        depth } ::
        rowsOfAll (depth + 1) code

/-- The rows of code. -/
def rowsOfAll (depth : Nat) : List Op → List Row
  | [] => []
  | o :: rest => rowsOf depth o ++ rowsOfAll depth rest

end

/-- Whether characters occur in others, one after the other. -/
def occursIn (needle : List Char) : List Char → Bool
  | [] => needle.isEmpty
  | c :: rest => needle.isPrefixOf (c :: rest) || occursIn needle rest

/-- Whether a row has a text in its command or its payload. -/
def Row.mentions (needle : String) (r : Row) : Bool :=
  occursIn needle.toList r.command.toList || occursIn needle.toList r.text.toList

/-- The rows that have a text; the empty text keeps all. -/
def filterRows (rows : List Row) (needle : String) : List Row :=
  if needle.isEmpty then rows else rows.filter (·.mentions needle)

end Resumable.Browser
