/-
  Resumable.Program.Scope — declared names and temps.

  Names that a unit declares live on as fields of one container, so that they survive a
  suspension.  Values captured on the way live in temps, numbered from zero in the order in which
  they are made.
-/
import Resumable.Tree.Node

namespace Resumable.Program

/-- The declared names of a unit and the number of temps made so far. -/
structure Scope where
  /-- The name of the container. -/
  container : String
  /-- What the number of a temp is appended to. -/
  stem : String
  /-- The declared names in the order of their first declaration. -/
  names : List String := []
  /-- How many temps were made. -/
  temps : Nat := 0
  deriving Repr, DecidableEq, Inhabited

namespace Scope

/-- Whether a name is declared. -/
def declared (s : Scope) (x : String) : Bool := s.names.contains x

/-- Declares a name; a second declaration changes nothing. -/
def declare (s : Scope) (x : String) : Scope :=
  if s.declared x then s else { s with names := s.names ++ [x] }

/-- Declares names one after the other. -/
def declareAll (s : Scope) (xs : List String) : Scope := xs.foldl declare s

/-- The field of the container that holds a name. -/
def field (s : Scope) (x : String) : Node := .dot (.name s.container) x

/-- What a reference to a name becomes: the container's field if the name is declared. -/
def resolve (s : Scope) (x : String) : Node := if s.declared x then s.field x else .name x

/-- The name of the temp with a number. -/
def temp (s : Scope) (k : Nat) : String := s.stem ++ toString k

/-- Makes a new temp. -/
def nextTemp (s : Scope) : String × Scope := (s.temp s.temps, { s with temps := s.temps + 1 })

/-- The temp made last, if there is one. -/
def lastTemp? (s : Scope) : Option String :=
  match s.temps with
  | 0 => none
  | k + 1 => some (s.temp k)

end Scope

end Resumable.Program
