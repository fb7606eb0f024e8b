/-
  Resumable.Files.Tree — places, paths and a tree of files.

  A place is reached from the top directory; a path is a text that leads to a place from a
  working directory.  Followed as a text, a path always leads somewhere; followed in a tree of
  files, every step has to start in a directory that is there.
-/
import Resumable.Text.Bytes

namespace Resumable.Files

/-- A place: the names from the top directory down. -/
abbrev Place := List String

/-! ## §1. Paths. -/

/-- The path that leads to a place from anywhere. -/
def pathTo (place : Place) : String := "/" ++ "/".intercalate place

/-- Where a path starts, for a working directory. -/
def startOf (here : Place) (path : String) : Place :=
  if path.toList.head? == some '/' then [] else here

/-- One step along a path. -/
def step (place : Place) (name : String) : Place :=
  if name.isEmpty || name == "." then place
  else if name == ".." then place.dropLast
  else place ++ [name]

/-- Where a path leads as a text. -/
def follow (here : Place) (path : String) : Place :=
  (path.splitOn "/").foldl step (startOf here path)

/-- A place and the directories above it, up to the top. -/
def upward (place : Place) : List Place :=
  (List.range (place.length + 1)).reverse.map place.take

/-! ## §2. Trees. -/

/-- Files and directories; a directory that holds something need not be listed. -/
structure Tree where
  /-- The content of a file, or `none` for a directory. -/
  entries : List (Place × Option Bytes) := []
  deriving Repr, Inhabited

namespace Tree

/-- Whether there is a directory at a place. -/
def isDirectory (t : Tree) (place : Place) : Bool :=
  place.isEmpty || t.entries.any (fun (p, content) =>
    (p == place && content.isNone) || (place.isPrefixOf p && p != place))

/-- The content of the file at a place. -/
def contentAt? (t : Tree) (place : Place) : Option Bytes := (t.entries.lookup place).join

/-- Where the names of a path lead; each step has to start in a directory. -/
def walk? (t : Tree) : Place → List String → Option Place
  | place, [] => some place
  | place, name :: rest =>
      if t.isDirectory place then t.walk? (step place name) rest else none

/-- Where a path leads in a tree, whether or not something is there. -/
def locate? (t : Tree) (here : Place) (path : String) : Option Place :=
  t.walk? (startOf here path) (path.splitOn "/")

/-- Whether a path leads to something. -/
def isThere (t : Tree) (here : Place) (path : String) : Bool :=
  match t.locate? here path with
  | some place => t.isDirectory place || (t.contentAt? place).isSome
  | none => false

/-- The content of the file a path leads to. -/
def read? (t : Tree) (here : Place) (path : String) : Option Bytes := do
  t.contentAt? (← t.locate? here path)

/-- The tree with the file a path leads to replaced or added; its directory has to be there. -/
def write? (t : Tree) (here : Place) (path : String) (content : Bytes) : Option Tree := do
  let place ← t.locate? here path
  if t.isDirectory place then none
  else return { t with entries := (place, some content) :: t.entries.filter (·.1 != place) }

end Tree

end Resumable.Files
