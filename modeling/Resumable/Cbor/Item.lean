/-
  Resumable.Cbor.Item — CBOR data items and how they are written.

  Items are written canonically: every head in its shortest form, every length definite, and the
  keys of a map ordered by length first and then byte by byte.  Equal items therefore have equal
  bytes.
-/
import Resumable.Text.Bytes

namespace Resumable.Cbor

/-- A data item. -/
inductive Item where
  | unsigned (value : Nat)
  /-- The number `-1 - value`. -/
  | negative (value : Nat)
  | bytes (value : Bytes)
  /-- A text; `none` if its bytes encode no text. -/
  | text (value : Option String)
  | array (items : List Item)
  | map (entries : List (Item × Item))
  | tagged (tag : Nat) (item : Item)
  | bool (value : Bool)
  | null
  | undefined
  | simple (value : Nat)
  | float (width : Nat) (bits : Nat)
  deriving Repr, Inhabited

/-! ## §1. Heads. -/

/-- A number in `width` bytes, the most significant first. -/
def bigEndian : (width : Nat) → Nat → Bytes
  | 0, _ => []
  | w + 1, n => bigEndian w (n / 256) ++ [UInt8.ofNat (n % 256)]

/-- The head of an item: its major type and a number, in the shortest form. -/
def head (major : Nat) (n : Nat) : Bytes :=
  let first (low : Nat) : UInt8 := UInt8.ofNat (32 * major + low)
  if n < 24 then [first n]
  else if n < 0x100 then first 24 :: bigEndian 1 n
  else if n < 0x10000 then first 25 :: bigEndian 2 n
  else if n < 0x100000000 then first 26 :: bigEndian 4 n
  else first 27 :: bigEndian 8 n

/-! ## §2. Items. -/

/-- Whether bytes come before others, byte by byte. -/
def bytesBefore : Bytes → Bytes → Bool
  | _, [] => false
  | [], _ :: _ => true
  | a :: as, b :: bs => a.toNat < b.toNat || (a == b && bytesBefore as bs)

/-- Whether a key comes before another or is the same: the shorter ones first, then byte by
    byte. -/
def keyBefore (a b : Bytes) : Bool :=
  a.length < b.length || (a.length == b.length && !bytesBefore b a)

namespace Item

mutual

/-- The bytes of an item. -/
def encode : Item → Bytes
  | unsigned n => head 0 n
  | negative n => head 1 n
  | bytes bs => head 2 bs.length ++ bs
  | text s =>
      let bs := Text.bytesOf (s.getD "")
      head 3 bs.length ++ bs
  | array items => head 4 items.length ++ encodeAll items
  | map entries =>
      let sorted := (encodeEntries entries).mergeSort (fun a b => keyBefore a.1 b.1)
      head 5 entries.length ++ sorted.flatMap (fun e => e.1 ++ e.2)
  | tagged tag item => head 6 tag ++ encode item
  | bool false => [0xF4]
  | bool true => [0xF5]
  | null => [0xF6]
  | undefined => [0xF7]
  | simple n => head 7 n
  | float width bits =>
      UInt8.ofNat (if width = 2 then 0xF9 else if width = 4 then 0xFA else 0xFB) ::
        bigEndian width bits

/-- The bytes of items one after the other. -/
def encodeAll : List Item → Bytes
  | [] => []
  | i :: rest => encode i ++ encodeAll rest

/-- The bytes of keys and values. -/
def encodeEntries : List (Item × Item) → List (Bytes × Bytes)
  | [] => []
  | (k, v) :: rest => (encode k, encode v) :: encodeEntries rest

end

/-- A text item. -/
def ofText (s : String) : Item := text (some s)

end Item

end Resumable.Cbor
