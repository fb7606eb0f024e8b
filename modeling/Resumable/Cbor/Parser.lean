/-
  Resumable.Cbor.Parser — CBOR data items from bytes.

  Indefinite lengths and tags are read.  Lists and maps may be nested 32 deep, directly nested
  tags counting as levels, and hold at most 131072 elements.
-/
import Resumable.Cbor.Item

namespace Resumable.Cbor

/-- How deep items may be nested. -/
def deepest : Nat := 32

/-- How many elements a list or map may have. -/
def longest : Nat := 131072

/-- A number from its bytes, the most significant first. -/
def ofBigEndian (bs : Bytes) : Nat := bs.foldl (fun n b => 256 * n + b.toNat) 0

/-- The first `n` bytes and the others. -/
def takeBytes? (n : Nat) (bs : Bytes) : Option (Bytes × Bytes) :=
  let taken := bs.take n
  if taken.length == n then some (taken, bs.drop n) else none

/-- The head of an item: its major type, the five low bits of its first byte, and its number. -/
structure Head where
  major : Nat
  low : Nat
  value : Nat
  deriving Repr

namespace Head

/-- Whether the length is indefinite. -/
def isIndefinite (h : Head) : Bool := h.low == 31

/-- Reads a head. -/
def parse? : Bytes → Option (Head × Bytes)
  | [] => none
  | b :: rest =>
      let major := b.toNat / 32
      let low := b.toNat % 32
      let number (width : Nat) : Option (Head × Bytes) := do
        let (bs, rest) ← takeBytes? width rest
        let value := ofBigEndian bs
        if major == 7 && width == 1 && value < 32 then none
        else return ({ major, low, value }, rest)
      if low < 24 then some ({ major, low, value := low }, rest)
      else if low == 24 then number 1
      else if low == 25 then number 2
      else if low == 26 then number 4
      else if low == 27 then number 8
      else if low == 31 && (2 ≤ major && major ≤ 5) then some ({ major, low, value := 0 }, rest)
      else none

/-- The item of a head of the last major type. -/
def special (h : Head) : Item :=
  if h.low == 20 then .bool false
  else if h.low == 21 then .bool true
  else if h.low == 22 then .null
  else if h.low == 23 then .undefined
  else if h.low == 25 then .float 2 h.value
  else if h.low == 26 then .float 4 h.value
  else if h.low == 27 then .float 8 h.value
  else .simple h.value

end Head

/-- The chunks of a string of indefinite length, up to the break. -/
def chunks? (major : Nat) : (fuel : Nat) → Bytes → List Bytes → Option (List Bytes × Bytes)
  | 0, _, _ => none
  | fuel + 1, bs, read =>
      match bs with
      | 0xFF :: rest => some (read.reverse, rest)
      | _ => do
          let (h, rest) ← Head.parse? bs
          if h.major != major || h.isIndefinite then none
          else
            let (chunk, rest) ← takeBytes? h.value rest
            chunks? major fuel rest (chunk :: read)

/-- A text from its chunks, each of which has to be a text. -/
def textOfChunks (chunks : List Bytes) : Item :=
  .text ((chunks.mapM Text.textOf?).map (fun parts => parts.foldl (· ++ ·) ""))

/-- A string item. -/
def ofChunks (major : Nat) (chunks : List Bytes) : Item :=
  if major == 2 then .bytes chunks.flatten else textOfChunks chunks

/-- Neighbours of a list as pairs; `none` if one is left over. -/
def pairs? : List Item → Option (List (Item × Item))
  | [] => some []
  | k :: v :: rest => (pairs? rest).map ((k, v) :: ·)
  | [_] => none

/-- The list or map of some items. -/
def collection? (major : Nat) (items : List Item) : Option Item :=
  if major == 4 then (if items.length > longest then none else some (.array items))
  else match pairs? items with
    | some entries => if entries.length > longest then none else some (.map entries)
    | none => none

mutual

/-- An item; `fuel` bounds the number of steps, `depth` says how deep it is nested and `tagged`
    whether it directly follows a tag. -/
def item? : (fuel depth : Nat) → (tagged : Bool) → Bytes → Option (Item × Bytes)
  | 0, _, _, _ => none
  | fuel + 1, depth, tagged, bs =>
      match Head.parse? bs with
      | none => none
      | some (h, rest) =>
          if h.major == 0 then some (.unsigned h.value, rest)
          else if h.major == 1 then some (.negative h.value, rest)
          else if h.major == 2 || h.major == 3 then
            if h.isIndefinite then
              (chunks? h.major (rest.length + 1) rest []).map
                (fun (cs, rest) => (ofChunks h.major cs, rest))
            else (takeBytes? h.value rest).map (fun (b, rest) => (ofChunks h.major [b], rest))
          else if h.major == 4 || h.major == 5 then
            let count := if h.major == 4 then h.value else 2 * h.value
            if depth ≥ deepest || h.value > longest then none
            else
              let read :=
                if h.isIndefinite then untilBreak? fuel (depth + 1) rest []
                else items? fuel (depth + 1) count rest []
              match read with
              | none => none
              | some (items, rest) => (collection? h.major items).map (fun c => (c, rest))
          else if h.major == 6 then
            let depth := if tagged then depth + 1 else depth
            if depth > deepest then none
            else
              match item? fuel depth true rest with
              | none => none
              | some (i, rest) => some (.tagged h.value i, rest)
          else some (h.special, rest)

/-- A given number of items. -/
def items? : (fuel depth count : Nat) → Bytes → List Item → Option (List Item × Bytes)
  | 0, _, _, _, _ => none
  | _, _, 0, bs, read => some (read.reverse, bs)
  | fuel + 1, depth, count + 1, bs, read =>
      match item? fuel depth false bs with
      | none => none
      | some (i, rest) => items? fuel depth count rest (i :: read)

/-- The items up to a break. -/
def untilBreak? : (fuel depth : Nat) → Bytes → List Item → Option (List Item × Bytes)
  | 0, _, _, _ => none
  | fuel + 1, depth, bs, read =>
      match bs with
      | 0xFF :: rest => some (read.reverse, rest)
      | _ =>
          match item? fuel depth false bs with
          | none => none
          | some (i, rest) => untilBreak? fuel depth rest (i :: read)

end

/-- The item that bytes hold; nothing may follow it. -/
def parse? (bs : Bytes) : Option Item := do
  let (i, rest) ← item? (2 * bs.length + 3) 0 false bs
  if rest.isEmpty then some i else none

end Resumable.Cbor
