/-
  Resumable.Code.Cbor — executable code as CBOR.

  Field names are matched without regard to case, the first value of a field counts, and tags are
  looked through.  The first value of the wrong type is the failure.
-/
import Resumable.Code.Encoding
import Resumable.Cbor.Parser
import Resumable.Failure

namespace Resumable.Code

open Cbor (Item)

/-! ## §1. Writing. -/

/-- CBOR as an encoding of instructions. -/
def cborEncoding : Encoding Item where
  text := .ofText
  flag := .bool
  missing := .null
  list := .array
  record := fun fields => .map (fields.map (fun f => (.ofText f.1, f.2)))

/-- Executable code as canonical CBOR. -/
def toCbor (code : Code) : Bytes := (code.encode cborEncoding).encode

/-! ## §2. Looking through tags. -/

/-- Whether the content of a tag is of the type that the tag asks for. -/
def suitsTag (tag : Nat) (content : Item) : Bool :=
  match tag, content with
  | 0, .text _ => true
  | 0, _ => false
  | 1, .unsigned _ | 1, .negative _ | 1, .float _ _ => true
  | 1, _ => false
  | 2, .bytes _ | 3, .bytes _ => true
  | 2, _ | 3, _ => false
  | _, _ => true

/-- The tag that only says that the data is CBOR. -/
def selfDescribed : Nat := 55799

/-- The item inside all tags; `none` if a tag does not suit its content or makes it a number of
    any size, which no field takes. -/
def untagged? : Item → Option Item
  | .tagged tag i =>
      if tag == selfDescribed then untagged? i
      else if suitsTag tag i && tag != 2 && tag != 3 then untagged? i
      else none
  | i => some i

/-- Whether an element of a list can be read at all: its outermost tag suits its content. -/
def isReadable : Item → Bool
  | .tagged tag i => if tag == selfDescribed then isReadable i else suitsTag tag i
  | _ => true

/-! ## §3. Records. -/

/-- Whether two names of the same length differ at most in the case of ASCII letters. -/
def sameName (a b : String) : Bool := a.toList.map Char.toLower == b.toList.map Char.toLower

/-- The slot that a key stands for among those that are not taken. -/
def cborSlot? (free : List (String × Slot)) (key : String) : Option (String × Slot) :=
  (free.find? (fun f => f.1 == key)).or (free.find? (fun f => sameName f.1 key))

/-- The name a key of a record stands for: `some none` for a number, which names no field. -/
def cborKey? : Item → Option (Option String)
  | .text s => s.map some
  | .unsigned _ => some none
  | .negative n => if n < 0x8000000000000000 then some none else none
  | _ => none

/-- A text; `none` if null leaves the field as it is. -/
def cborText (i : Item) : Except Failure (Option String) :=
  match untagged? i with
  | some (.text (some s)) => .ok (some s)
  | some .null | some .undefined => .ok none
  | _ => .error .external

/-- A flag; `none` if null leaves the field as it is. -/
def cborFlag (i : Item) : Except Failure (Option Bool) :=
  match untagged? i with
  | some (.bool b) => .ok (some b)
  | some .null | some .undefined => .ok none
  | _ => .error .external

/-- A list of texts; null stands for no list. -/
def cborTexts (i : Item) : Except Failure (Option (List String)) :=
  match untagged? i with
  | some (.array is) => do return some ((← is.mapM cborText).map (·.getD ""))
  | some .null | some .undefined => .ok none
  | _ => .error .external

/-- The value of a field that holds no instructions, put into a record. -/
def cborField (r : Record) (field : String) (slot : Slot) (v : Item) : Except Failure Record :=
  match slot with
  | .text => do
      match ← cborText v with
      | some s => return r.setText field s
      | none => return r
  | .flag => do return { r with async := (← cborFlag v).getD r.async }
  | .names => do return { r with args := ← cborTexts v }
  | .code => .ok r

/-- The command of a record, read from its entries; empty if there is none. -/
def cborCommand : List (Item × Item) → (free : List (String × Slot)) → String →
    Except Failure String
  | [], _, command => .ok command
  | (k, v) :: rest, free, command =>
      match cborKey? k with
      | none => .error .external
      | some key =>
          match key.bind (cborSlot? free) with
          | none => cborCommand rest free command
          | some _ => do
              let s ← cborText v
              cborCommand rest [] (s.getD command)

mutual

/-- A list of instructions. -/
def ofCborItem : Item → Except Failure Code
  | .tagged tag i =>
      if tag == selfDescribed then ofCborItem i
      else if suitsTag tag i && tag != 2 && tag != 3 then ofCborItem i
      else .error .external
  | .array is => if is.all isReadable then cborItems 0 is else .error .external
  | .null | .undefined => .ok []
  | _ => .error .external

/-- The instructions of a list, the first one at position `k`. -/
def cborItems (k : Nat) : List Item → Except Failure Code
  | [] => .ok []
  | i :: rest => do
      let op ← cborItem k i
      return op :: (← cborItems (k + 1) rest)

/-- One instruction. -/
def cborItem (k : Nat) : Item → Except Failure Op
  | .tagged tag i =>
      if tag == selfDescribed then cborItem k i
      else if suitsTag tag i && tag != 2 && tag != 3 then cborItem k i
      else .error (.within ("instruction " ++ toString k) .external)
  | .map entries =>
      match cborCommand entries [("command", .text)] "" with
      | .error e => .error (.within ("instruction " ++ toString k) e)
      | .ok command =>
          if command.isEmpty then
            .error (.within ("instruction " ++ toString k) (.plain "missing command"))
          else match cborEntries (slots command) entries {} with
            | .ok r => .ok (r.op command)
            | .error e =>
                .error (.within ("instruction " ++ toString k ++ " (" ++ command ++ ")") e)
  | .null | .undefined =>
      .error (.within ("instruction " ++ toString k) (.plain "missing command"))
  | _ => .error (.within ("instruction " ++ toString k) .external)

/-- The entries of a record; `free` are the slots not taken yet. -/
def cborEntries (free : List (String × Slot)) :
    List (Item × Item) → Record → Except Failure Record
  | [], r => .ok r
  | (k, v) :: rest, r =>
      match cborKey? k with
      | none => .error .external
      | some key =>
          match key.bind (cborSlot? free) with
          | none => cborEntries free rest r
          | some (field, slot) =>
              let left := free.filter (fun f => f.1 != field)
              if slot == .code then
                match ofCborItem v with
                | .error e => .error e
                | .ok code => cborEntries left rest (r.setCode field code)
              else
                match cborField r field slot v with
                | .error e => .error e
                | .ok r => cborEntries left rest r

end

/-- Reads executable code from CBOR. -/
def ofCbor (bytes : Bytes) : Except Failure Code :=
  let result : Except Failure Code := match Cbor.parse? bytes with
    | none => .error .external
    | some i => ofCborItem i
  result.mapError (fun e => .wrap .serialize .decode (some e) "cbor")

end Resumable.Code
