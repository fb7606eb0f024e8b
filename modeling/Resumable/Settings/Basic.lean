/-
  Resumable.Settings.Basic — what a project can choose.

  Settings say which names may suspend, how generated names look, how output is shown, how much
  is logged and where compiled units are kept.  Only the first two influence what is compiled,
  and only they enter the fingerprint.
-/
import Resumable.Cbor.Item
import Resumable.Convention
import Resumable.Digest.Sha256
import Resumable.Failure
import Resumable.Log
import Resumable.Output.Format
import Resumable.Program.Transform

namespace Resumable

/-- The settings of a project.  A list that was not given is apart from an empty one. -/
structure Settings where
  /-- What names of host primitives start with. -/
  starts : Option (List String) := none
  /-- Names of callbacks. -/
  markers : Option (List String) := none
  /-- A pattern for names that may suspend; empty for none. -/
  pattern : String := ""
  /-- The container of the declared names. -/
  container : String := ""
  /-- What the number of a temp is appended to. -/
  stem : String := ""
  /-- The dotted path the runtime puts the value of a call in. -/
  returnValue : String := ""
  /-- The name of the form of output. -/
  format : String := ""
  /-- The name of the least level that is logged. -/
  level : String := ""
  /-- Whether the log is written for developers. -/
  development : Bool := false
  /-- Where compiled units are kept; empty for nowhere. -/
  cachePath : String := ""
  deriving DecidableEq, Repr, Inhabited

/-- The small letter of a capital; among those with an ASCII small letter, the dotted capital I is
    the only one outside ASCII that a name of a level can hold. -/
def Level.small (c : Char) : Char := if c.toNat == 0x130 then 'i' else c.toLower

/-- The level with a name in any letter case; no name stands for `info`. -/
def Level.ofName? (name : String) : Option Level :=
  let name := String.ofList (name.toList.map Level.small)
  if name.isEmpty then some .info
  else if name == "warning" then some .warn
  else Level.all.find? (fun l => l.name == name)

namespace Settings

/-! ## §1. Usual values. -/

/-- A text, or another one if it is empty. -/
def orElse (s usual : String) : String := if s.isEmpty then usual else s

/-- Settings with the usual value for everything that was not chosen.  The usual convention holds
    only if nothing was said about names. -/
def completed (s : Settings) : Settings :=
  let usual : Program.Naming := {}
  let unsaid := (s.starts.getD []).isEmpty && (s.markers.getD []).isEmpty && s.pattern.isEmpty
  { s with
    starts := if unsaid then some [Convention.usualStart] else s.starts
    markers := if unsaid then some Convention.usualMarkers else s.markers
    container := orElse s.container usual.container
    stem := orElse s.stem usual.stem
    returnValue := orElse s.returnValue usual.returnValue
    format := orElse s.format Output.Format.json.name
    level := orElse s.level Level.info.name }

/-- The settings of a project that chooses nothing. -/
def usual : Settings := completed {}

/-! ## §2. What cannot be used. -/

/-- The failure of a setting at a path. -/
def unusable (path : List String) (value detail : String) (cause : Option Failure) : Failure :=
  .report { phase := .config, category := .invalidData, path, detail
            value := some (.text value) } cause

/-- Fails on the first setting that cannot be used: the form of output, the level, the pattern. -/
def validate (s : Settings) : Except Failure Unit :=
  if (Output.Format.ofName? s.format).isNone then
    .error (unusable ["output", "format"] s.format "unknown output format" none)
  else if (Level.ofName? s.level).isNone then
    .error (unusable ["log", "level"] s.level "" (some .external))
  else if !s.pattern.isEmpty && (Pattern.parse? s.pattern).isNone then
    .error (unusable ["convention", "pattern"] s.pattern "" (some .external))
  else .ok ()

/-! ## §3. What settings are for. -/

/-- The convention for names: whatever one of the lists or the pattern matches. -/
def convention (s : Settings) : Except Failure Convention := do
  let lists := [Convention.startsWith (s.starts.getD []), .oneOf (s.markers.getD [])]
  if s.pattern.isEmpty then return .anyOf lists
  else match Pattern.parse? s.pattern with
    | some p => return .anyOf (lists ++ [.pattern p])
    | none => throw (.wrap .config .invalidData (some .external) "convention pattern")

/-- The generated names. -/
def naming (s : Settings) : Program.Naming := .of s.container s.stem s.returnValue

/-- The least level that is logged. -/
def leastLevel (s : Settings) : Except Failure Level :=
  match Level.ofName? s.level with
  | some l => .ok l
  | none => .error (.wrap .config .invalidData (some .external) "log level")

/-! ## §4. The fingerprint. -/

/-- A list of texts as data; a list that was not given is null. -/
def listItem : Option (List String) → Cbor.Item
  | none => .null
  | some texts => .array (texts.map .ofText)

/-- The settings that influence what is compiled, as bytes. -/
def essence (s : Settings) : Bytes :=
  (Cbor.Item.map [
    (.unsigned 1, listItem s.starts), (.unsigned 2, listItem s.markers),
    (.unsigned 3, .ofText s.pattern), (.unsigned 4, .ofText s.container),
    (.unsigned 5, .ofText s.stem), (.unsigned 6, .ofText s.returnValue)]).encode

/-- The digest of the settings that influence what is compiled, for any digest. -/
def fingerprintBy (digest : Bytes → String) (s : Settings) : String := digest s.essence

/-- The digest of the settings that influence what is compiled. -/
def fingerprint (s : Settings) : String := s.fingerprintBy Digest.sha256Hex

end Settings

end Resumable
