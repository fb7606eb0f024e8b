/-
  Resumable.Tree.Splice — splices and the statement lists they dissolve into.

  A splice holds siblings rather than one compound statement.  Flattening expands every splice
  in place, at any nesting, and drops empty positions, so afterwards each element of the list is
  a statement that stands on its own.
-/
import Resumable.Tree.Node

namespace Resumable

namespace Node

mutual

/-- The statements a list element contributes: those inside it if it is a splice, none if it is
    empty, itself otherwise. -/
def inlined : Node → List Node
  | absent => []
  | splice nodes => flatten nodes
  | n => [n]

/-- A statement list with every splice expanded in place. -/
def flatten : List Node → List Node
  | [] => []
  | n :: rest => n.inlined ++ flatten rest

end

/-- A splice of the given nodes without the empty positions. -/
def spliceOf (nodes : List Node) : Node :=
  splice (nodes.filter (fun n => !n.isAbsent))

@[simp] theorem flatten_nil : flatten [] = [] := by
  simp [flatten]

@[simp] theorem flatten_append (xs ys : List Node) :
    flatten (xs ++ ys) = flatten xs ++ flatten ys := by
  induction xs with
  | nil => simp
  | cons x xs ih => simp [flatten, ih]

/-- A splice contributes what its nodes contribute. -/
theorem flatten_splice (nodes rest : List Node) :
    flatten (splice nodes :: rest) = flatten (nodes ++ rest) := by
  simp [flatten, inlined]

end Node

end Resumable
