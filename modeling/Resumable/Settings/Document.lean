/-
  Resumable.Settings.Document — settings written in a document.

  A document has one table for each group of settings.  A name stands for the setting it equals,
  or else for the one it equals up to letter case; a value of the wrong kind makes the document
  unreadable, and a key that stands for nothing is refused.
-/
import Resumable.Settings.Basic
import Resumable.Text.Fold
import Resumable.Toml.Document

namespace Resumable.Settings

open Toml

/-! ## §1. Names. -/

/-- The groups of settings and the settings in each. -/
def groups : List (String × List String) :=
  [("convention", ["prefixes", "markers", "pattern"]),
   ("output", ["locals", "temp_prefix", "return_value", "format"]),
   ("log", ["level", "development"]),
   ("cache", ["path"])]

/-- The name among some that a key stands for. -/
def match? (names : List String) (key : String) : Option String :=
  (names.find? (· == key)).or (names.find? (fun n => Text.equalFold n key))

/-! ## §2. Values. -/

/-- A text. -/
def text? : Value → Option String
  | .text s => some s
  | _ => none

/-- A list of texts. -/
def texts? : Value → Option (List String)
  | .list items => items.mapM text?
  | _ => none

/-- A flag. -/
def flag? : Value → Option Bool
  | .flag b => some b
  | _ => none

/-- Settings with one of them chosen. -/
def choose? (s : Settings) (group name : String) (v : Value) : Option Settings :=
  match group, name with
  | "convention", "prefixes" => (texts? v).map (fun x => { s with starts := some x })
  | "convention", "markers" => (texts? v).map (fun x => { s with markers := some x })
  | "convention", "pattern" => (text? v).map (fun x => { s with pattern := x })
  | "output", "locals" => (text? v).map (fun x => { s with container := x })
  | "output", "temp_prefix" => (text? v).map (fun x => { s with stem := x })
  | "output", "return_value" => (text? v).map (fun x => { s with returnValue := x })
  | "output", "format" => (text? v).map (fun x => { s with format := x })
  | "log", "level" => (text? v).map (fun x => { s with level := x })
  | "log", "development" => (flag? v).map (fun x => { s with development := x })
  | "cache", "path" => (text? v).map (fun x => { s with cachePath := x })
  | _, _ => some s

/-! ## §3. Documents. -/

/-- Takes the settings of one group. -/
def chooseGroup? (s : Settings) (group : String) (names : List String) (v : Value) :
    Option Settings :=
  match v with
  | .table entries =>
      entries.foldlM (fun s e =>
        match match? names e.1 with
        | some name => s.choose? group name e.2
        | none => some s) s
  | _ => none

/-- The settings a document chooses; keys that stand for nothing are passed over. -/
def ofEntries? (entries : Entries) : Option Settings :=
  entries.foldlM (fun s e =>
    match match? (groups.map Prod.fst) e.1 with
    | some group => s.chooseGroup? group ((groups.lookup group).getD []) e.2
    | none => some s) {}

/-- Whether a key stands for a group or a setting. -/
def isKnown : Key → Bool
  | [group] => (match? (groups.map Prod.fst) group).isSome
  | [group, name] =>
      match match? (groups.map Prod.fst) group with
      | some g => (match? ((groups.lookup g).getD []) name).isSome
      | none => false
  | _ => false

/-- The settings that a document holds, completed and fit for use. -/
def parse (document : String) : Except Failure Settings := do
  let unreadable := Failure.wrap .config .decode (some .external) "parse configuration"
  match Document.parse? document with
  | none => throw unreadable
  | some d =>
      match ofEntries? d.root with
      | none => throw unreadable
      | some s =>
          match d.keys.find? (fun k => !isKnown k) with
          | some key =>
              throw (.invalidData .config [key.toText] "unknown configuration key")
          | none =>
              s.completed.validate
              return s.completed

end Resumable.Settings
