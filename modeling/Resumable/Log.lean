/-
  Resumable.Log — remarks made while working.

  A pass leaves remarks beside its result: a level, a message and named values.  They never
  influence the result; a reader keeps those at or above the level it asked for.
-/
namespace Resumable

/-- How urgent a remark is. -/
inductive Level where
  | debug | info | warn | error | dpanic | panic | fatal
  deriving DecidableEq, Repr, Inhabited

namespace Level

/-- Every level, the least urgent first. -/
def all : List Level := [debug, info, warn, error, dpanic, panic, fatal]

/-- The position of a level in the order of urgency. -/
def rank : Level → Nat
  | debug => 0
  | info => 1
  | warn => 2
  | error => 3
  | dpanic => 4
  | panic => 5
  | fatal => 6

/-- The name of a level. -/
def name : Level → String
  | debug => "debug"
  | info => "info"
  | warn => "warn"
  | error => "error"
  | dpanic => "dpanic"
  | panic => "panic"
  | fatal => "fatal"

/-- Whether a remark of the level `l` is kept by a reader who asked for `least`. -/
def enabled (least l : Level) : Bool := least.rank ≤ l.rank

end Level

namespace Log

/-- A value of a remark. -/
inductive Value where
  | text (value : String)
  | number (value : Int)
  | texts (values : List String)
  deriving DecidableEq, Repr

/-- A remark. -/
structure Entry where
  level : Level
  message : String
  fields : List (String × Value) := []
  deriving DecidableEq, Repr

/-- The remarks a reader who asked for a least level keeps. -/
def atLeast (least : Level) (entries : List Entry) : List Entry :=
  entries.filter (fun e => least.enabled e.level)

end Log

end Resumable
