/-
  Resumable.Cache.File — a store as the bytes of a file.

  An empty file is an empty store.  Anything else has to be the list of rows that `toBytes`
  writes.
-/
import Resumable.Cache.Store

namespace Resumable.Cache

open Cbor (Item)

namespace Row

/-- A row with its key as data. -/
def item (key : String) (r : Row) : Item :=
  .array ([.ofText key, .ofText r.source, .bytes r.code, .bytes r.locals] ++
    match r.created with
    | none => []
    | some n => if n < 0 then [.negative (-1 - n).toNat] else [.unsigned n.toNat])

/-- The row that data holds. -/
def ofItem? : Item → Option (String × Row)
  | .array [.text (some key), .text (some source), .bytes code, .bytes locals] =>
      some (key, { source, code, locals, created := none })
  | .array [.text (some key), .text (some source), .bytes code, .bytes locals, .unsigned n] =>
      some (key, { source, code, locals, created := some n })
  | .array [.text (some key), .text (some source), .bytes code, .bytes locals, .negative n] =>
      some (key, { source, code, locals, created := some (-1 - n) })
  | _ => none

end Row

namespace Store

/-- The bytes of a store. -/
def toBytes (s : Store) : Bytes :=
  (Item.array (s.rows.map (fun (key, r) => r.item key))).encode

/-- The store that the bytes of a file hold. -/
def ofBytes (bytes : Bytes) : Except Failure Store :=
  let unusable := Failure.wrap .cache .invalidInput (some .external) "creating table"
  if bytes.isEmpty then .ok {}
  else match Cbor.parse? bytes with
    | some (.array items) =>
        match items.mapM Row.ofItem? with
        | some rows => .ok { rows }
        | none => .error unusable
    | _ => .error unusable

end Store

end Resumable.Cache
