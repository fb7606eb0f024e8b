/-
  Resumable.Code.Json — executable code as JSON.

  Field names are matched without regard to case, a later value of a field replaces an earlier
  one, and null leaves a field as it is.  A value of the wrong type makes the record unusable, but
  only after its other fields were read, so that a failure inside a nested list is the one
  reported.
-/
import Resumable.Code.Encoding
import Resumable.Failure
import Resumable.Json.Parser
import Resumable.Text.Fold

namespace Resumable.Code

open Json (Value)

/-- JSON as an encoding for instructions. -/
def jsonEncoding : Encoding Value where
  text := .string
  flag := .bool
  missing := .null
  list := .array
  record := .object

/-- Executable code as JSON text. -/
def toJson (code : Code) : String := (code.encode jsonEncoding).toText

/-- The slot a field name stands for. -/
def jsonSlot? (fields : List (String × Slot)) (key : String) : Option (String × Slot) :=
  (fields.find? (fun f => f.1 == key)).or (fields.find? (fun f => Text.equalFold f.1 key))

/-- A record while it is being read. -/
structure JsonDraft where
  record : Record := {}
  /-- The latest name at each place of the lists of names read so far. -/
  names : List String := []
  /-- Whether a value had the wrong type. -/
  faulty : Bool := false

namespace JsonDraft

/-- Reads a text. -/
def text (d : JsonDraft) (field : String) : Value → JsonDraft
  | .string s => { d with record := d.record.setText field s }
  | .null => d
  | _ => { d with faulty := true }

/-- Reads a flag. -/
def flag (d : JsonDraft) : Value → JsonDraft
  | .bool b => { d with record := { d.record with async := b } }
  | .null => d
  | _ => { d with faulty := true }

/-- The names of a list; null keeps what an earlier list had in its place. -/
def nameItems : List Value → (earlier : List String) → List String
  | [], _ => []
  | .string s :: rest, earlier => s :: nameItems rest (earlier.drop 1)
  | _ :: rest, earlier => earlier.headD "" :: nameItems rest (earlier.drop 1)

/-- Whether a value can stand in a list of names. -/
def isName : Value → Bool
  | .string _ | .null => true
  | _ => false

/-- Reads a list of names.  Places beyond the end of a list keep their names, but an empty list and
    null forget all of them. -/
def nameList (d : JsonDraft) : Value → JsonDraft
  | .array [] => { d with record := { d.record with args := some [] }, names := [] }
  | .array vs =>
      let names := nameItems vs d.names
      { record := { d.record with args := some names }
        names := names ++ d.names.drop names.length
        faulty := d.faulty || !vs.all isName }
  | .null => { d with record := { d.record with args := none }, names := [] }
  | _ => { d with faulty := true }

/-- Reads a field that holds no instructions. -/
def plain (d : JsonDraft) (field : String) (slot : Slot) (v : Value) : JsonDraft :=
  match slot with
  | .text => d.text field v
  | .flag => d.flag v
  | .names => d.nameList v
  | .code => d

end JsonDraft

/-- The command of a record. -/
def jsonCommand (fields : List (String × Value)) : Except Failure String :=
  let d := fields.foldl (fun (d : JsonDraft) (k, v) =>
    match jsonSlot? [("command", .text)] k with
    | some (field, _) => d.text field v
    | none => d) {}
  if d.faulty then .error .external
  else if (d.record.text "command").isEmpty then .error (.plain "missing command")
  else .ok (d.record.text "command")

mutual

/-- A list of instructions. -/
def ofJsonValue : Value → Except Failure Code
  | .array vs => jsonItems 0 vs
  | .null => .ok []
  | _ => .error .external

/-- The instructions of a list, the first one at position `k`. -/
def jsonItems (k : Nat) : List Value → Except Failure Code
  | [] => .ok []
  | v :: rest => do
      let op ← jsonItem k v
      return op :: (← jsonItems (k + 1) rest)

/-- One instruction. -/
def jsonItem (k : Nat) : Value → Except Failure Op
  | .object fields =>
      match jsonCommand fields with
      | .error e => .error (.within ("instruction " ++ toString k) e)
      | .ok command =>
          match jsonFields (slots command) fields {} with
          | .ok d =>
              if d.faulty then
                .error (.within ("instruction " ++ toString k ++ " (" ++ command ++ ")") .external)
              else .ok (d.record.op command)
          | .error e =>
              .error (.within ("instruction " ++ toString k ++ " (" ++ command ++ ")") e)
  | .null => .error (.within ("instruction " ++ toString k) (.plain "missing command"))
  | _ => .error (.within ("instruction " ++ toString k) .external)

/-- The fields of a record. -/
def jsonFields (known : List (String × Slot)) :
    List (String × Value) → JsonDraft → Except Failure JsonDraft
  | [], d => .ok d
  | (k, v) :: rest, d =>
      match jsonSlot? known k with
      | none => jsonFields known rest d
      | some (field, .code) =>
          match ofJsonValue v with
          | .error e => .error e
          | .ok code => jsonFields known rest { d with record := d.record.setCode field code }
      | some (field, slot) => jsonFields known rest (d.plain field slot v)

end

/-- Reads executable code from JSON. -/
def ofJson (bytes : Bytes) : Except Failure Code :=
  let result : Except Failure Code := match Json.parse? bytes with
    | none => .error .external
    | some v => ofJsonValue v
  result.mapError (fun e => .wrap .serialize .decode (some e) "json")

end Resumable.Code
