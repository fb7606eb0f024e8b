/-
  Resumable.Program.Instr — instructions.

  A program is a list of instructions.  Most are leaves: a command and the node it carries out.
  A branch, a loop and a function declaration hold lists of their own.  Only a call can suspend.
-/
import Resumable.Tree.Node

namespace Resumable.Program

/-- Which parts of a branch were split. -/
structure Shape where
  cond : Bool := false
  yes : Bool := false
  no : Bool := false
  deriving DecidableEq, Repr, Inhabited

namespace Shape

/-- The parts as bits of a number, the condition highest. -/
def bits (s : Shape) : Nat := 4 * s.cond.toNat + 2 * s.yes.toNat + s.no.toNat

/-- Whether any part was split. -/
def any (s : Shape) : Bool := s.cond || s.yes || s.no

end Shape

/-- An instruction. -/
inductive Instr where
  /-- A command with the node it carries out.  `async` marks a call that may suspend. -/
  | leaf (command : String) (code : Node) (async : Bool)
  /-- A condition with two lists.  A temp stands for the value of a split list. -/
  | branch (cond : Node) (yes no : List Instr) (hasElse : Bool) (shape : Shape)
      (yesTemp noTemp : Option String)
  /-- A loop: `test`, then `body`, then `step`, again and again.  `cond` is the condition that
      `test` ends with; `stepExpr` is the step if it was not split. -/
  | loop (cond : Node) (test step body : List Instr) (condSplit : Bool) (stepExpr : Node)
  /-- A function declaration. -/
  | defun (name : String) (params : List String) (body : List Instr)
  deriving Repr, Inhabited

namespace Instr

/-- The word for what an instruction asks for. -/
def command : Instr → String
  | leaf c _ _ => c
  | branch _ _ _ _ _ _ _ => "if"
  | loop _ _ _ _ _ _ => "for"
  | defun _ _ _ => "defun"

/-- Whether an instruction may suspend. -/
def async : Instr → Bool
  | leaf _ _ a => a
  | _ => false

/-- Whether an instruction carries a single node. -/
def isLeaf : Instr → Bool
  | leaf _ _ _ => true
  | _ => false

/-- A synchronous statement. -/
def stat (e : Node) : Instr := leaf "stat" (.stat e) false

/-- An assignment as a synchronous statement. -/
def set (target value : Node) : Instr := stat (.assign "" target value)

mutual

/-- An instruction and all those inside it, in program order. -/
def walk : Instr → List Instr
  | i@(leaf _ _ _) => [i]
  | i@(branch _ yes no _ _ _ _) => i :: (walkAll yes ++ walkAll no)
  | i@(loop _ test step body _ _) => i :: (walkAll test ++ walkAll step ++ walkAll body)
  | i@(defun _ _ body) => i :: walkAll body

/-- All instructions of a list, nested ones included. -/
def walkAll : List Instr → List Instr
  | [] => []
  | i :: rest => walk i ++ walkAll rest

end

/-- How many instructions a list holds, nested ones included. -/
def count (list : List Instr) : Nat := (walkAll list).length

end Instr

end Resumable.Program
