/-
  Resumable.Program.Vars — the names a statement declares.

  A `var` counts wherever it stands in a statement position, inside nested statements and
  function declarations as well; a function literal keeps its bindings to itself.
-/
import Resumable.Tree.Node

namespace Resumable.Node

mutual

/-- The names of the `var` bindings of a statement, in order and with repetitions. -/
def vars : Node → List String
  | var ds => ds.map (·.1)
  | block b => varsAll b
  | splice ns => varsAll ns
  | ifElse _ y n => vars y ++ vars n
  | forLoop i _ _ b => vars i ++ vars b
  | forIn i _ b => vars i ++ vars b
  | whileLoop _ b => vars b
  | doLoop _ b => vars b
  | label _ b => vars b
  | withObject _ b => vars b
  | tryCatch b h f =>
      varsAll b ++
        (match h with
        | none => []
        | some (_, hb) => varsAll hb) ++
        (match f with
        | none => []
        | some fb => varsAll fb)
  | switch _ cs => varsCases cs
  | defun _ _ b => varsAll b
  | _ => []

/-- The names that the statements of a list declare. -/
def varsAll : List Node → List String
  | [] => []
  | n :: rest => vars n ++ varsAll rest

/-- The names that the bodies of switch clauses declare. -/
def varsCases : List (Node × List Node) → List String
  | [] => []
  | (_, b) :: rest => varsAll b ++ varsCases rest

end

end Resumable.Node
