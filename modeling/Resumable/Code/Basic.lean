/-
  Resumable.Code.Basic — executable code.

  Executable code is what a runtime is handed: instructions whose payloads are source text.  It
  has the same structure as a program, and every instruction says whether the runtime has to
  wait after it.
-/
namespace Resumable

/-- An instruction of executable code. -/
inductive Op where
  /-- A command with one statement as its payload. -/
  | leaf (command code : String) (async : Bool)
  /-- Runs `yes` if `cond` holds and `no` otherwise. -/
  | branch (cond : String) (yes no : List Op) (async : Bool)
  /-- Runs `body` and then `step` as long as the test at the end of `cond` holds. -/
  | loop (cond step body : List Op) (async : Bool)
  /-- Declares a function.  Its parameters may be left out. -/
  | defun (name : String) (args : Option (List String)) (code : List Op) (async : Bool)
  deriving Repr, BEq, Inhabited

/-- Executable code. -/
abbrev Code := List Op

namespace Op

/-- The word for what an instruction asks for. -/
def command : Op → String
  | leaf c _ _ => c
  | branch _ _ _ _ => "if"
  | loop _ _ _ _ => "for"
  | defun _ _ _ _ => "defun"

/-- Whether the runtime has to wait after the instruction. -/
def suspends : Op → Bool
  | leaf _ _ a | branch _ _ _ a | loop _ _ _ a | defun _ _ _ a => a

mutual

/-- An instruction and those inside it, in program order.  The walk goes into an instruction only
    if `enter` holds of it. -/
def walk (enter : Op → Bool) : Op → List Op
  | o@(leaf _ _ _) => [o]
  | o@(branch _ yes no _) => o :: if enter o then walkAll enter yes ++ walkAll enter no else []
  | o@(loop cond step body _) =>
      o :: if enter o then walkAll enter cond ++ walkAll enter step ++ walkAll enter body else []
  | o@(defun _ _ code _) => o :: if enter o then walkAll enter code else []

/-- All instructions of a list. -/
def walkAll (enter : Op → Bool) : List Op → List Op
  | [] => []
  | o :: rest => walk enter o ++ walkAll enter rest

end

end Op

namespace Code

/-- The instructions of a code in program order, nested ones included. -/
def all (code : Code) : List Op := Op.walkAll (fun _ => true) code

/-- How many instructions a code holds, nested ones included. -/
def count (code : Code) : Nat := code.all.length

end Code

end Resumable
