/-
  Resumable.Program.Transform — from a unit to its program.
-/
import Resumable.Program.Walk
import Resumable.Program.Rebuild

namespace Resumable.Program

/-! ## §1. Names. -/

/-- The names a program is written with. -/
structure Naming where
  /-- The container of the declared names. -/
  container : String := "$$locals"
  /-- What the number of a temp is appended to. -/
  stem : String := "__DrutaTemp_"
  /-- The dotted path the runtime puts the value of a call in. -/
  returnValue : String := "self.returnValue"
  deriving DecidableEq, Repr, Inhabited

namespace Naming

/-- Names in which an empty one stands for the usual one. -/
def of (container stem returnValue : String) : Naming :=
  let usual : Naming := {}
  { container := if container.isEmpty then usual.container else container
    stem := if stem.isEmpty then usual.stem else stem
    returnValue := if returnValue.isEmpty then usual.returnValue else returnValue }

/-- The parts of a dotted path, of which there is at least one. -/
def parts (path : String) : List String :=
  match path.splitOn "." with
  | [] => [""]
  | parts => parts

/-- A dotted path as an expression. -/
def dotted (path : String) : Node :=
  match path.splitOn "." with
  | [] => .name ""
  | x :: rest => rest.foldl Node.dot (.name x)

end Naming

/-! ## §2. Transforming. -/

/-- Figures of one transform. -/
structure Stats where
  temps : Nat := 0
  calls : Nat := 0
  asyncCalls : Nat := 0
  instructions : Nat := 0
  locals : Nat := 0
  deriving DecidableEq, Repr, Inhabited

/-- A transformed unit. -/
structure Transformed where
  /-- The resulting tree. -/
  tree : Node
  /-- The instructions. -/
  program : List Instr
  /-- The names moved into the container. -/
  locals : List String
  stats : Stats

/-- The state a walk starts in: every name the unit declares is known from the beginning. -/
def State.start (naming : Naming) (body : List Node) : State :=
  let scope : Scope := { container := naming.container, stem := naming.stem }
  let scope := scope.declareAll (Node.varsAll body)
  { scope, remarks := [.declared scope.names] }

/-- What a finished walk amounts to. -/
def State.finish (s : State) : Except Failure Transformed :=
  if s.frames.balanced then
    let program := s.frames.root.1
    .ok { tree := .toplevel (Node.flatten (rebuildAll program))
          program
          locals := s.scope.names
          stats := { temps := s.scope.temps, calls := s.calls, asyncCalls := s.asyncCalls
                     instructions := Instr.count program, locals := s.scope.names.length } }
  else
    .error (.only { phase := .transform, category := .invalidData
                    detail := "unbalanced frame stack (depth " ++ toString s.frames.depth ++ ")" })

/-- The walk over the statements of a unit. -/
def walkUnit (naming : Naming) (isAsync : String → Bool) (body : List Node) :
    Except Failure Bool × State :=
  let env : Surface := { isAsync, returnValue := Naming.dotted naming.returnValue }
  (Walk.inside "toplevel" (Walk.stmts env body)).run (State.start naming body)

/-- The entry that closes the log of a transform. -/
def Stats.entry (s : Stats) : Log.Entry :=
  { level := .debug, message := "transform complete"
    fields := [("instructions", .number s.instructions), ("temps", .number s.temps),
               ("calls", .number s.calls), ("async_calls", .number s.asyncCalls)] }

/-- Transforms the statements of a unit; the log is there even if the transform fails. -/
def transformBody (naming : Naming) (isAsync : String → Bool) (body : List Node) :
    Except Failure Transformed × List Log.Entry :=
  let (walked, s) := walkUnit naming isAsync body
  let log := s.remarks.map (Remark.entry s.trail)
  match walked with
  | .error e => (.error e, log)
  | .ok _ =>
      match s.finish with
      | .error e => (.error e, log)
      | .ok t => (.ok t, log ++ [t.stats.entry])

/-- Transforms a unit. -/
def transform (naming : Naming) (isAsync : String → Bool) :
    Node → Except Failure Transformed × List Log.Entry
  | .toplevel body => transformBody naming isAsync body
  | _ => (.error (.invalidInput .transform "nil tree"), [])

end Resumable.Program
