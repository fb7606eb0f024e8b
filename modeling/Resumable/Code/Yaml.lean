/-
  Resumable.Code.Yaml — executable code as YAML.

  Field names are matched exactly and may not repeat, scalars of any type are taken as texts in
  the spelling of the document, and null leaves a field as it is.  A value of the wrong type makes
  the record unusable, but only after its other fields were read; a scalar that is not what its
  tag says ends the reading at once.  A `<<` entry adds the entries of other mappings that the
  record does not have itself.

  An instruction is read twice, first for its command and then for the fields that the command
  calls for.  Each of the two readings counts its visits, and one that spends nearly all of them
  behind aliases is refused.
-/
import Resumable.Code.Encoding
import Resumable.Failure
import Resumable.Text.Base64
import Resumable.Yaml.Node
import Resumable.Yaml.Writer

namespace Resumable.Code

open Yaml (Tag Document Data)

/-! ## §1. Writing. -/

/-- YAML as an encoding of instructions. -/
def yamlEncoding : Encoding Data where
  text := .text
  flag := .flag
  missing := .list []
  list := .list
  record := .record

/-- Executable code as a YAML document. -/
def toYaml (code : Code) : String := (code.encode yamlEncoding).toText

/-! ## §2. Visits. -/

/-- How many nodes a reading has visited, and how many of them behind an alias. -/
structure Visits where
  all : Nat := 0
  aliased : Nat := 0
  deriving DecidableEq, Repr

/-- The share of visits that may be behind aliases, in parts of 360000000: ninety-nine in a hundred
    up to 400000 visits, then ever less, and ten in a hundred from 4000000 visits on. -/
def Visits.share (all : Nat) : Nat := 99 * 3600000 - 89 * (min all 4000000 - 400000)

/-- Whether more visits were behind aliases than is allowed, small documents apart. -/
def Visits.excessive (v : Visits) : Bool :=
  100 < v.aliased && 1000 < v.all && share v.all * v.all < 360000000 * v.aliased

/-- A reading of one instruction. -/
abbrev Decode := StateT Visits (Except Failure)

/-- One visit more. -/
def Visits.next (v : Visits) (aliased : Bool) : Visits :=
  { all := v.all + 1, aliased := if aliased then v.aliased + 1 else v.aliased }

/-- Counts a visit; `aliases` are the anchors whose nodes are being read through an alias. -/
def visit (aliases : List Nat) : Decode Unit := do
  let v := (← get).next (!aliases.isEmpty)
  if v.excessive then throw .external else set v

variable (doc : Document)

/-- Visits a node and, if it is an alias, the node it stands for.  The result is that node and the
    anchors that are open in it.  An anchor may not be opened inside itself. -/
def enter (aliases : List Nat) (n : Yaml.Node) : Decode (Yaml.Node × List Nat) := do
  visit aliases
  match n with
  | .reference a _ _ =>
      if aliases.contains a then throw .external
      visit (a :: aliases)
      return (doc.follow n, a :: aliases)
  | _ => return (n, aliases)

/-! ## §3. Scalars. -/

/-- What reading a value of some type gives. -/
inductive Reading (α : Type) where
  | value (a : α)
  /-- Null, which leaves a field as it is. -/
  | nothing
  /-- A value of another type. -/
  | mismatch

/-- Whether a tag names a type that the text of a plain scalar shows. -/
def isShownType (tag : Tag) : Bool :=
  [Tag.null, Tag.bool, Tag.int, Tag.float, Tag.timestamp].contains tag

/-- The text of a scalar whose tag names no type that plain text shows: bytes are decoded, and
    every other tag is passed over. -/
def taggedText (tag : Tag) (value : String) : Except Failure String :=
  if tag == Tag.binary then
    match Text.bytesOfBase64? value with
    | some bytes => .ok (Text.lossyText bytes)
    | none => .error .external
  else .ok value

/-- A scalar as a text. -/
def scalarText (tag : Tag) (value : String) : Except Failure (Reading String) :=
  if !isShownType tag then .value <$> taggedText tag value
  else if !Tag.suits tag value then .error .external
  else if tag == Tag.null then .ok .nothing
  else .ok (.value value)

/-- A word that used to be a boolean, as a flag. -/
def formerFlag (value : String) : Reading Bool := (Tag.formerBoolean? value).elim .mismatch .value

/-- A scalar as a flag; words that used to be booleans are taken as well. -/
def scalarFlag (tag : Tag) (value : String) : Except Failure (Reading Bool) :=
  if !isShownType tag then formerFlag <$> taggedText tag value
  else if !Tag.suits tag value then .error .external
  else if tag == Tag.null then .ok .nothing
  else if tag == Tag.bool then .ok (.value (["true", "True", "TRUE"].contains value))
  else .ok .mismatch

/-- A text. -/
def yamlText (aliases : List Nat) (n : Yaml.Node) : Decode (Reading String) := do
  match (← enter doc aliases n).1 with
  | .scalar tag value _ _ => scalarText tag value
  | _ => return .mismatch

/-- A flag. -/
def yamlFlag (aliases : List Nat) (n : Yaml.Node) : Decode (Reading Bool) := do
  match (← enter doc aliases n).1 with
  | .scalar tag value _ _ => scalarFlag tag value
  | _ => return .mismatch

/-- The names of a list, without nulls, and whether any had the wrong type. -/
def yamlNameItems (aliases : List Nat) : List Yaml.Node → Decode (List String × Bool)
  | [] => return ([], false)
  | n :: rest => do
      let first ← yamlText doc aliases n
      let (names, faulty) ← yamlNameItems aliases rest
      match first with
      | .value s => return (s :: names, faulty)
      | .nothing => return (names, faulty)
      | .mismatch => return (names, true)

/-! ## §4. Records. -/

/-- A record while it is being read, and whether a value had the wrong type. -/
structure YamlDraft where
  record : Record := {}
  faulty : Bool := false

namespace YamlDraft

/-- Marks the record as unusable. -/
def spoiled (d : YamlDraft) : YamlDraft := { d with faulty := true }

/-- Puts in what was read of a value: null changes nothing, and a value of another type spoils the
    record. -/
def put {α : Type} (d : YamlDraft) (r : Reading α) (set : Record → α → Record) : YamlDraft :=
  match r with
  | .value a => { d with record := set d.record a }
  | .nothing => d
  | .mismatch => d.spoiled

end YamlDraft

/-- Reads a list of instructions. -/
abbrev CodeReader := Yaml.Node → Except Failure Code

/-- A list of instructions that may be left out.  A node with the tag of null is not asked whether
    it is a list: a scalar has to be null, a mapping is of the wrong type, and a list may only be
    empty. -/
def yamlCode (read : CodeReader) (n : Yaml.Node) : Except Failure (Reading Code) :=
  match n with
  | .scalar tag value _ _ =>
      if tag == Tag.null then
        (if Tag.suits tag value then .ok .nothing else .error .external)
      else .value <$> read n
  | .sequence tag items _ =>
      if tag == Tag.null then (if items.isEmpty then .ok (.value []) else .error .external)
      else .value <$> read n
  | .mapping tag _ _ => if tag == Tag.null then .ok .mismatch else .value <$> read n
  | .reference _ _ _ => .error .external

/-- Reads a field. -/
def yamlField (read : CodeReader) (aliases : List Nat) (field : String) (slot : Slot)
    (v : Yaml.Node) (d : YamlDraft) : Decode YamlDraft := do
  match slot with
  | .text => return d.put (← yamlText doc aliases v) (fun r s => r.setText field s)
  | .flag => return d.put (← yamlFlag doc aliases v) (fun r b => { r with async := b })
  | .code =>
      let (n, _) ← enter doc aliases v
      return d.put (← yamlCode read n) (fun r code => r.setCode field code)
  | .names =>
      match ← enter doc aliases v with
      | (.sequence _ items _, aliases) =>
          let (names, faulty) ← yamlNameItems doc aliases items
          return { record := { d.record with args := some names }, faulty := d.faulty || faulty }
      | (.scalar tag value _ _, _) =>
          match ← scalarText tag value with
          | .nothing => return d
          | _ => return d.spoiled
      | _ => return d.spoiled

/-- Whether a key stands for entries of other mappings. -/
def isMerge : Yaml.Node → Bool
  | .scalar tag value _ _ => value == "<<" && tag == Tag.merge
  | _ => false

/-- Whether two keys are written alike. -/
def sameKey : Yaml.Node → Yaml.Node → Bool
  | .scalar _ a _ _, .scalar _ b _ _ => a == b
  | .sequence _ _ _, .sequence _ _ _ => true
  | .mapping _ _ _, .mapping _ _ _ => true
  | .reference _ a _, .reference _ b _ => a == b
  | _, _ => false

/-- Whether two of some keys are written alike. -/
def hasTwins : List Yaml.Node → Bool
  | [] => false
  | k :: rest => rest.any (sameKey k) || hasTwins rest

/-- What is known while the entries of a mapping are read: the record, the fields that this mapping
    has set, and the names that are taken.  Names count as taken only where one mapping is merged
    into another. -/
structure Filling where
  draft : YamlDraft
  done : List String := []
  taken : Option (List String) := none

/-- Reads an entry of a mapping.  A name that is taken is passed over, and a field that the mapping
    has set already spoils the record. -/
def yamlEntry (read : CodeReader) (known : List (String × Slot)) (aliases : List Nat) (f : Filling)
    (k v : Yaml.Node) : Decode Filling := do
  match ← yamlText doc aliases k with
  | .nothing => return f
  | .mismatch => return { f with draft := f.draft.spoiled }
  | .value name =>
      if f.taken.any (fun names => names.contains name) then return f
      let f := { f with taken := f.taken.map (fun names => name :: names) }
      match known.lookup name with
      | none => return f
      | some slot =>
          if f.done.contains name then return { f with draft := f.draft.spoiled }
          let draft ← yamlField doc read aliases name slot v f.draft
          return { f with draft, done := name :: f.done }

/-- Reads the entries of a mapping, merges apart. -/
def yamlEntries (read : CodeReader) (known : List (String × Slot)) (aliases : List Nat) :
    List (Yaml.Node × Yaml.Node) → Filling → Decode Filling
  | [], f => return f
  | (k, v) :: rest, f => do
      let f ← if isMerge k then pure f else yamlEntry doc read known aliases f k v
      yamlEntries read known aliases rest f

/-- The names of some keys. -/
def keyNames (aliases : List Nat) : List (Yaml.Node × Yaml.Node) → Decode (List String)
  | [] => return []
  | (k, _) :: rest => do
      let name ← yamlText doc aliases k
      let names ← keyNames aliases rest
      match name with
      | .value s => return s :: names
      | _ => return names

/-- The mappings that a `<<` entry may refer to. -/
def mergedNodes : Yaml.Node → List Yaml.Node
  | .sequence _ items _ => items
  | n => [n]

/-- Reads the fields of a record from a mapping and from the mappings merged into it; the fuel
    bounds how deep merges are nested. -/
def yamlRecord (read : CodeReader) (known : List (String × Slot)) :
    (fuel : Nat) → (aliases : List Nat) → List (Yaml.Node × Yaml.Node) → YamlDraft →
    (taken : Option (List String)) → Decode (YamlDraft × Option (List String))
  | 0, _, _, _, _ => throw .external
  | fuel + 1, aliases, entries, draft, taken => do
      if hasTwins (entries.map (·.1)) then return (draft.spoiled, taken)
      let f ← yamlEntries doc read known aliases entries { draft, taken }
      match (entries.filter (fun e => isMerge e.1)).getLast? with
      | none => return (f.draft, f.taken)
      | some (_, v) =>
          let names ← match f.taken with
            | some names => pure names
            | none => keyNames doc aliases entries
          let merge (acc : YamlDraft × List String) (n : Yaml.Node) :
              Decode (YamlDraft × List String) := do
            match doc.follow n with
            | .mapping _ more _ =>
                let (_, inner) ← enter doc aliases n
                let (draft, names) ← yamlRecord read known fuel inner more acc.1 (some acc.2)
                return (draft, names.getD [])
            | _ => throw .external
          let (draft, names) ← (mergedNodes v).foldlM merge (f.draft, names)
          return (draft, f.taken.map (fun _ => names))

/-! ## §5. Instructions. -/

/-- The only field that is read for the sake of the command. -/
def headSlots : List (String × Slot) := [("command", .text)]

/-- Reads a record with the given fields from a node.  A null has no fields. -/
def yamlFields (read : CodeReader) (known : List (String × Slot)) (n : Yaml.Node) :
    Except Failure Record := do
  let (draft, _) ← draft.run {}
  if draft.faulty then throw .external else return draft.record
where
  draft : Decode YamlDraft := do
    match ← enter doc [] n with
    | (.mapping _ entries _, aliases) =>
        let (draft, _) ← yamlRecord doc read known (doc.root.size + 1) aliases entries {} none
        return draft
    | (.scalar tag value _ _, _) =>
        match ← scalarText tag value with
        | .nothing => return {}
        | _ => throw .external
    | _ => throw .external

/-- The instruction at position `k` of a list. -/
def yamlItem (read : CodeReader) (k : Nat) (n : Yaml.Node) : Except Failure Op := do
  let place := "instruction " ++ toString k
  let head ← (yamlFields doc read headSlots n).mapError (.within place)
  let command := head.text "command"
  if command.isEmpty then
    throw (.plain ("line " ++ toString n.line ++ ": " ++ place ++ ": missing command"))
  else
    let record ← (yamlFields doc read (slots command) n).mapError
      (.within (place ++ " (" ++ command ++ ")"))
    return record.op command

/-- The instructions of a list, the first one at position `k`. -/
def yamlItems (read : CodeReader) : (k : Nat) → List Yaml.Node → Except Failure Code
  | _, [] => .ok []
  | k, n :: rest => do
      let op ← yamlItem doc read k n
      return op :: (← yamlItems read (k + 1) rest)

/-- Reads a list of instructions; the fuel bounds how deep lists are nested. -/
def ofYamlNode : (fuel : Nat) → CodeReader
  | 0, _ => .error .external
  | fuel + 1, n =>
      match n with
      | .sequence _ items _ => yamlItems doc (ofYamlNode fuel) 0 items
      | _ => .error (.plain ("line " ++ toString n.line ++ ": code must be a sequence"))

/-- Reads executable code from a YAML document.  An empty document and null hold no code. -/
def ofYaml (bytes : Bytes) : Except Failure (Option Code) :=
  let result : Except Failure (Option Code) := do
    match Document.parse bytes with
    | .error _ => throw .external
    | .ok none => return none
    | .ok (some doc) =>
        match ← yamlCode (ofYamlNode doc (doc.root.size + 1)) doc.root with
        | .value code => return some code
        | .nothing => return none
        | .mismatch => throw .external
  result.mapError (fun e => .wrap .serialize .decode (some e) "yaml")

end Resumable.Code
