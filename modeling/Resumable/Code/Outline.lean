/-
  Resumable.Code.Outline — executable code as a tree of lines.

  Every instruction is a line below the list it belongs to.  Connecting strokes lead from a list
  to its lines; a line that has line breaks of its own goes on below itself.
-/
import Resumable.Code.Basic
import Resumable.Text.Lines

namespace Resumable

/-- A labelled tree; a label may carry a mark. -/
inductive Outline where
  | node (mark : Option String) (label : String) (below : List Outline)
  deriving Repr

namespace Outline

/-- A label with further lines below it. -/
def branch (label : String) (below : List Outline) : Outline := node none label below

/-- The stroke for a level: nothing to connect below the last line of a list. -/
def stroke (isLast : Bool) : String := if isLast then "    " else "│   "

/-- A label whose later lines start with a margin. -/
def hanging (margin label : String) : String := ("\n" ++ margin).intercalate (label.splitOn "\n")

mutual

/-- A tree as text below the given margin. -/
def write (margin : String) (isLast : Bool) : Outline → String
  | node mark label below =>
      let inner := margin ++ stroke isLast
      let edge := if isLast then "└── " else "├── "
      let mark := match mark with
        | some m => "[" ++ m ++ "]  "
        | none => ""
      margin ++ edge ++ mark ++ hanging inner label ++ "\n" ++ writeAll inner below

/-- Trees one below the other. -/
def writeAll (margin : String) : List Outline → String
  | [] => ""
  | [t] => write margin true t
  | t :: rest => write margin false t ++ writeAll margin rest

end

mutual

/-- The tree of an instruction. -/
def ofOp : Op → Outline
  | .leaf command code async =>
      node (if async then some "async" else none) (command ++ ": " ++ Text.oneLine code) []
  | .branch cond yes no _ =>
      branch ("if " ++ Text.oneLine cond)
        (branch "then" (ofOps yes) ::
          (match no with
          | [] => []
          | o :: rest => [branch "else" (ofOp o :: ofOps rest)]))
  | .loop cond step body _ =>
      branch "for" [branch "cond" (ofOps cond), branch "step" (ofOps step),
        branch "body" (ofOps body)]
  | .defun name args code _ =>
      branch ("defun " ++ name ++ "(" ++ ", ".intercalate (args.getD []) ++ ")") (ofOps code)

/-- The trees of a list of instructions. -/
def ofOps : List Op → List Outline
  | [] => []
  | o :: rest => ofOp o :: ofOps rest

end

end Outline

/-- Executable code as a tree of lines. -/
def Code.outline (code : Code) : String := "code\n" ++ Outline.writeAll "" (Outline.ofOps code)

end Resumable
