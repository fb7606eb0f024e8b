/-
  Resumable.Program.Serialize — from instructions to executable code.

  Every payload is turned into text by a renderer.  A payload that the renderer refuses is
  reported with the way to its instruction: positions in lists, and the names of the lists.
-/
import Resumable.Failure
import Resumable.Code.Basic
import Resumable.Program.Instr
import Resumable.Source.Printer

namespace Resumable.Program

variable (render : Renderer)

/-- The text of a payload. -/
def payload (path : List String) (n : Node) : Except Failure String :=
  if n.isAbsent then .error (.invalidData .serialize path "instruction without payload")
  else match render n with
    | .ok text => .ok text
    | .error e =>
        .error (.report { phase := .serialize, category := .encode, path, node := n.tag } (some e))

mutual

/-- One instruction as executable code; `path` leads to it. -/
def serialize (path : List String) : Instr → Except Failure Op
  | .leaf command code async => return .leaf command (← payload render path code) async
  | .branch cond yes no _ _ _ _ => do
      let cond ← payload render path cond
      let yes ← serializeAll (path ++ ["then"]) 0 yes
      let no ← serializeAll (path ++ ["else"]) 0 no
      return .branch cond yes no false
  | .loop _ test step body _ _ => do
      let test ← serializeAll (path ++ ["cond"]) 0 test
      let step ← serializeAll (path ++ ["step"]) 0 step
      let body ← serializeAll (path ++ ["body"]) 0 body
      return .loop test step body false
  | .defun name params body => do
      let body ← serializeAll (path ++ [name]) 0 body
      return .defun name (some params) body false

/-- A list of instructions as executable code, the first one at position `k`. -/
def serializeAll (path : List String) (k : Nat) : List Instr → Except Failure Code
  | [] => .ok []
  | i :: rest => do
      let op ← serialize (path ++ [toString k]) i
      return op :: (← serializeAll path (k + 1) rest)

end

/-- A program as executable code. -/
def toCode (program : List Instr) : Except Failure Code := serializeAll render [] 0 program

end Resumable.Program
