/-
  Resumable.Program.Trail — the way from the root to where a walk stands.

  A walk enters named places and leaves them again.  The names are kept in a block of cells that
  is written over as the walk comes back to the same depth; a block that is too small is put
  aside and a copy of twice its size used from then on.  A place refers to a block and a depth,
  so what it reads as is settled when the walk is over.
-/
namespace Resumable.Program

/-- A reference to a stretch of the trail. -/
structure Place where
  block : Nat
  depth : Nat
  deriving DecidableEq, Repr, Inhabited

/-- The cells of a walk and how deep it stands. -/
structure Trail where
  /-- The block in use; its first `depth` cells are the way to where the walk stands. -/
  cells : List String := []
  depth : Nat := 0
  /-- How many cells the block in use has room for. -/
  room : Nat := 0
  /-- The blocks put aside, oldest first. -/
  aside : List (List String) := []
  deriving Repr, Inhabited

namespace Trail

/-- The names from the root to where the walk stands. -/
def here (t : Trail) : List String := t.cells.take t.depth

/-- Goes down to a named place. -/
def enter (t : Trail) (name : String) : Trail :=
  if t.depth < t.room then
    { t with cells := t.here ++ name :: t.cells.drop (t.depth + 1), depth := t.depth + 1 }
  else
    { cells := t.here ++ [name], depth := t.depth + 1, room := max 1 (2 * t.room)
      aside := t.aside ++ [t.cells] }

/-- Goes up again. -/
def leave (t : Trail) : Trail := { t with depth := t.depth - 1 }

/-- A reference to the way to where the walk stands. -/
def place (t : Trail) : Place := ⟨t.aside.length, t.depth⟩

/-- What a reference reads as. -/
def read (t : Trail) (p : Place) : List String :=
  ((t.aside ++ [t.cells]).getD p.block []).take p.depth

end Trail

end Resumable.Program
