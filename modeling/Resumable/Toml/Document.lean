/-
  Resumable.Toml.Document — what the lines of a settings document add up to.

  Lines are taken one after the other.  Each may create tables on its way; a table that was only
  created on the way may still be defined by a header of its own, once.  Anything else that is
  named twice makes the document invalid.  Beside the values, the keys are kept in the order in
  which they were named.
-/
import Resumable.Toml.Syntax

namespace Resumable.Toml

/-- Named values, in the order in which they were added. -/
abbrev Entries := List (String × Value)

namespace Entries

/-- The value at a key; the way leads through the last table of a list of tables. -/
def find? : Entries → Key → Option Value
  | es, [] => some (.table es)
  | es, [k] => es.lookup k
  | es, k :: ks =>
      match es.lookup k with
      | some (.table inner) => find? inner ks
      | some (.tables items) => find? (items.getLastD []) ks
      | _ => none

/-- Named values with one of them replaced, or added at the end. -/
def set (es : Entries) (name : String) (value : Value) : Entries :=
  if (es.lookup name).isSome then es.map (fun e => if e.1 == name then (name, value) else e)
  else es ++ [(name, value)]

/-- Sets the value at a key; the tables on the way have to be there. -/
def put? (value : Value) : Entries → Key → Option Entries
  | _, [] => none
  | es, [k] => some (es.set k value)
  | es, k :: ks =>
      match es.lookup k with
      | some (.table inner) => do return es.set k (.table (← put? value inner ks))
      | some (.tables items) => do
          let last ← put? value (items.getLastD []) ks
          return es.set k (.tables (items.dropLast ++ [last]))
      | _ => none

/-- Sets the value at a key and makes the tables on the way that are not there. -/
def grow? (value : Value) : Entries → Key → Option Entries
  | _, [] => none
  | es, [k] => some (es.set k value)
  | es, k :: ks =>
      match es.lookup k with
      | none => do return es.set k (.table (← grow? value [] ks))
      | some (.table inner) => do return es.set k (.table (← grow? value inner ks))
      | _ => none

end Entries

/-! ## §1. The state while lines are taken. -/

/-- What the lines so far add up to. -/
structure State where
  root : Entries := []
  /-- The table that entries are added to. -/
  context : Key := []
  /-- Tables that were created on the way and not yet defined. -/
  implicit : List Key := []
  /-- Keys whose value is a list in brackets. -/
  lists : List Key := []
  /-- The keys named so far, the last one first. -/
  named : List Key := []
  deriving Repr, Inhabited

namespace State

/-- Marks a table as created on the way. -/
def markImplicit (s : State) (key : Key) : State :=
  { s with implicit := key :: s.implicit.filter (· != key) }

/-- Marks a table as defined. -/
def markDefined (s : State) (key : Key) : State :=
  { s with implicit := s.implicit.filter (· != key) }

/-- Notes whether the value with a name in the current table is a list in brackets.  The empty
    name stands for the current table itself, unless that is the root. -/
def noteKind (s : State) (name : String) (isList : Bool) : State :=
  let key := if !name.isEmpty || s.context.isEmpty then s.context ++ [name] else s.context
  let others := s.lists.filter (· != key)
  { s with lists := if isList then key :: others else others }

/-- Adds a named value to the current table.  A name that is taken may be given again only to a
    table created on the way, which is kept, and to the list whose items are being read. -/
def setValue (s : State) (name : String) (value : Value) : Option State := do
  let key := s.context ++ [name]
  match s.root.find? s.context with
  | some (.table _) | some (.tables _) =>
      if (s.root.find? key).isNone then
        return { s with root := ← s.root.put? value key }
      else if !s.implicit.contains key then none
      else if s.lists.contains key then
        return { s.markDefined key with root := ← s.root.put? value key }
      else return s.markDefined key
  | _ => none

/-- Makes the tables above a key that are not there. -/
def openParents (s : State) : (above : Key) → (rest : Key) → Option State
  | _, [] | _, [_] => some s
  | above, k :: rest => do
      let key := above ++ [k]
      let s ← match s.root.find? key with
        | none => do return { s.markImplicit key with root := ← s.root.put? (.table []) key }
        | some (.table _) | some (.tables _) => some s
        | some _ => none
      openParents s key rest

/-- Makes the table at a key the current one. -/
def openTable (s : State) (key : Key) : Option State := do
  let s ← s.openParents [] key
  let s ← { s with context := key.dropLast }.setValue (key.getLastD "") (.table [])
  return { s with context := key }

/-- Makes a new table at the end of the list of tables at a key the current one. -/
def openElement (s : State) (key : Key) : Option State := do
  let s ← s.openParents [] key
  let items ← match s.root.find? key with
    | none => some []
    | some (.tables items) => some items
    | some _ => none
  return { s with root := ← s.root.put? (.tables (items ++ [[]])) key, context := key }

/-- Makes the tables on the way of a dotted key, each inside the one before. -/
def openDotted (s : State) (above : Key) : Option State :=
  above.foldlM (fun s k =>
    let key := s.context ++ [k]
    (s.markImplicit key).openTable key) s

/-- Notes that a name in the current table was given. -/
def noteNamed (s : State) (key : Key) : State := { s with named := key :: s.named }

end State

/-! ## §2. Values. -/

/-- Whether a value is a list in brackets. -/
def Value.isList : Value → Bool
  | .list _ => true
  | _ => false

mutual

/-- The value of an expression given to a name in the current table; `inList` says whether it is
    an item of a list given to that name. -/
def Expr.value? (name : String) (inList : Bool) : Expr → State → Option (Value × State)
  | .literal v, s => some (v, s)
  | .list items, s => do
      let (vs, s) ← values? name items (s.noteKind name true)
      return (.list vs, s)
  | .table entries, s => do
      let outer := s.context
      let key := outer ++ [name]
      let s := s.markImplicit key
      let s ← if inList then s.openElement key else s.openTable key
      let (es, s) ← entryValues? key entries s []
      return (.table es, { s with context := outer })

/-- The values of the items of a list. -/
def values? (name : String) : List Expr → State → Option (List Value × State)
  | [], s => some ([], s)
  | e :: rest, s => do
      let (v, s) ← Expr.value? name true e s
      let (vs, s) ← values? name rest s
      return (v :: vs, s)

/-- The entries of a table at a key. -/
def entryValues? (key : Key) : List (Key × Expr) → State → Entries → Option (Entries × State)
  | [], s, es => some (es, s)
  | (k, e) :: rest, s, es => do
      let s ← { s with context := key }.openDotted k.dropLast
      let name := k.getLastD ""
      let s := s.noteNamed (s.context ++ [name])
      let (v, s) ← Expr.value? name false e s
      let s ← s.setValue name v
      let s := s.noteKind name v.isList
      entryValues? key rest s (← es.grow? v k)

end

/-! ## §3. Documents. -/

/-- Takes one line. -/
def State.take (s : State) : Line → Option State
  | .table key => do return ((← s.openTable key).noteKind "" false).noteNamed key
  | .element key => do return ((← s.openElement key).noteKind "" false).noteNamed key
  | .entry key e => do
      let outer := s.context
      let s ← s.openDotted key.dropLast
      let name := key.getLastD ""
      let s := s.noteNamed (s.context ++ [name])
      let (v, s) ← e.value? name false s
      let s ← s.setValue name v
      return { s.noteKind name v.isList with context := outer }

/-- A document: its values, and its keys in the order in which they were named. -/
structure Document where
  root : Entries
  keys : List Key
  deriving Repr, Inhabited

/-- The document that a text holds. -/
def Document.parse? (s : String) : Option Document := do
  let lines ← lines? s
  let state ← lines.foldlM State.take {}
  return { root := state.root, keys := state.named.reverse }

end Resumable.Toml
