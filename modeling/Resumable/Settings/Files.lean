/-
  Resumable.Settings.Files — settings kept in files.

  Settings are loaded from a given file, or from the nearest settings file in a directory or
  above it.
-/
import Resumable.Files.Tree
import Resumable.Settings.Document

namespace Resumable.Settings

open Files

/-- The name of a settings file. -/
def fileName : String := "druta.toml"

/-- Settings and the place of the file they came from. -/
structure Loaded where
  settings : Settings
  place : Place
  deriving Repr

/-- The settings that the bytes of a file hold. -/
def ofBytes (bytes : Bytes) : Except Failure Settings :=
  match Text.textOf? bytes with
  | some s => parse s
  | none => .error (.wrap .config .decode (some .external) "parse configuration")

/-- The settings of the file a path leads to; `content` is `none` if it cannot be read. -/
def ofFile (here : Place) (path : String) (content : Option Bytes) : Except Failure Loaded :=
  match content with
  | none => .error (.wrap .config .notFound (some .external) ("cannot read " ++ path))
  | some bytes => do return { settings := ← ofBytes bytes, place := follow here path }

/-- The paths at which settings are looked for, starting in a directory. -/
def candidates (here : Place) (start : String) : List String :=
  (upward (follow here start)).map (fun place => pathTo (place ++ [fileName]))

/-- Loads the settings of a file of a tree. -/
def load (t : Tree) (here : Place) (path : String) : Except Failure Loaded :=
  ofFile here path (t.read? here path)

/-- Loads the nearest settings file of a tree, if there is one. -/
def findAndLoad (t : Tree) (here : Place) (start : String) : Except Failure (Option Loaded) :=
  match (candidates here start).find? (t.isThere here) with
  | none => .ok none
  | some path => do return some (← load t here path)

end Resumable.Settings
