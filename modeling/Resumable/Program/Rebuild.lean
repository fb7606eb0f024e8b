/-
  Resumable.Program.Rebuild — the source text's tree of a program.

  The resulting tree is read off the instructions, so the source shows the statements in the
  order in which they run.  A branch with a split side is preceded by the statements of that side
  and keeps a reference to its temp.  A loop whose condition was split tests it at the top of its
  body; a split step stands at the end of the body.
-/
import Resumable.Tree.Splice
import Resumable.Program.Instr

namespace Resumable.Program

/-- One side of a branch in the resulting tree, and the statements placed before the branch. -/
def rebuildSide (temp : Option String) (statements : List Node) : List Node × Node :=
  match temp with
  | some t => (statements, .stat (.name t))
  | none => ([], .block statements)

/-- A branch in the resulting tree. -/
def rebuildBranch (cond : Node) (yes : List Node × Node) (no : List Node × Node) : Node :=
  let hoisted := yes.1 ++ no.1
  if hoisted.isEmpty then .ifElse cond yes.2 no.2
  else .spliceOf (hoisted ++ [.ifElse cond yes.2 no.2])

/-- A loop in the resulting tree. -/
def rebuildLoop (cond : Node) (test step body : List Node) (condSplit : Bool) (stepExpr : Node) :
    Node :=
  let check : List Node :=
    if condSplit then
      test.dropLast ++ [.ifElse (.unary .before "!" cond) (.breakTo "") .absent]
    else []
  let last := if stepExpr.isAbsent then step else []
  .forLoop .absent (if condSplit then .absent else cond) stepExpr (.block (check ++ body ++ last))

mutual

/-- The statement that stands for an instruction. -/
def rebuild : Instr → Node
  | .leaf command code _ => if command == "test" then .stat code else code
  | .branch cond yes no hasElse _ yesTemp noTemp =>
      rebuildBranch cond (rebuildSide yesTemp (rebuildAll yes))
        (if hasElse then rebuildSide noTemp (rebuildAll no) else ([], .absent))
  | .loop cond test step body condSplit stepExpr =>
      rebuildLoop cond (rebuildAll test) (rebuildAll step) (rebuildAll body) condSplit stepExpr
  | .defun name params body => .defun name params (rebuildAll body)

/-- The statements that stand for a list of instructions. -/
def rebuildAll : List Instr → List Node
  | [] => []
  | i :: rest => rebuild i :: rebuildAll rest

end

end Resumable.Program
