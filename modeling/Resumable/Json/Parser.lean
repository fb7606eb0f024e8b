/-
  Resumable.Json.Parser — JSON values from bytes.

  Strings are read leniently: bytes that encode no character and surrogates without a partner
  read as U+FFFD.  Everything else follows the grammar to the letter, and lists and objects may be
  nested 10000 deep.
-/
import Resumable.Json.Value
import Resumable.Text.Bytes

namespace Resumable.Json

/-! ## §1. Pieces. -/

/-- Drops white space. -/
def skipBlank (bs : Bytes) : Bytes :=
  bs.dropWhile (fun b => b == 0x20 || b == 0x09 || b == 0x0A || b == 0x0D)

/-- Whether a byte is a decimal digit. -/
def isDigit (b : UInt8) : Bool := 0x30 ≤ b && b ≤ 0x39

/-- The bytes as ASCII text. -/
def ascii (bs : Bytes) : String := String.ofList (bs.map (fun b => Char.ofNat b.toNat))

/-- At least one digit. -/
def digits? (bs : Bytes) : Option (Bytes × Bytes) :=
  match bs.takeWhile isDigit with
  | [] => none
  | ds => some (ds, bs.drop ds.length)

/-- The whole part of a number. -/
def whole? (bs : Bytes) : Option (Bytes × Bytes) :=
  match bs with
  | 0x30 :: rest => some ([0x30], rest)
  | _ => digits? bs

/-- The fraction of a number, if it has one. -/
def fraction? (bs : Bytes) : Option (Bytes × Bytes) :=
  match bs with
  | 0x2E :: rest => (digits? rest).map (fun (ds, rest) => (0x2E :: ds, rest))
  | _ => some ([], bs)

/-- The exponent of a number, if it has one. -/
def exponent? (bs : Bytes) : Option (Bytes × Bytes) :=
  match bs with
  | e :: rest =>
      if e == 0x65 || e == 0x45 then
        match rest with
        | s :: more =>
            if s == 0x2B || s == 0x2D then
              (digits? more).map (fun (ds, rest) => (e :: s :: ds, rest))
            else (digits? rest).map (fun (ds, rest) => (e :: ds, rest))
        | [] => none
      else some ([], bs)
  | [] => some ([], [])

/-- A number. -/
def number? (bs : Bytes) : Option (String × Bytes) := do
  let (sign, bs) : Bytes × Bytes := match bs with
    | 0x2D :: rest => ([0x2D], rest)
    | _ => ([], bs)
  let (w, bs) ← whole? bs
  let (f, bs) ← fraction? bs
  let (e, bs) ← exponent? bs
  return (ascii (sign ++ w ++ f ++ e), bs)

/-! ## §2. Strings. -/

/-- A number of four hexadecimal digits. -/
def hex4? : Bytes → Option (Nat × Bytes)
  | a :: b :: c :: d :: rest => do
      let digit (x : UInt8) := Text.hexValue? (Char.ofNat x.toNat)
      return (((16 * (← digit a) + (← digit b)) * 16 + (← digit c)) * 16 + (← digit d), rest)
  | _ => none

/-- The character of a `\u` escape, behind its first number.  A leading surrogate takes the escape
    after it along if that is its partner. -/
def unicode (code : Nat) (rest : Bytes) : Char × Bytes :=
  if 0xD800 ≤ code && code < 0xDC00 then
    match rest with
    | 0x5C :: 0x75 :: more =>
        match hex4? more with
        | some (low, more) =>
            if 0xDC00 ≤ low && low < 0xE000 then
              (Char.ofNat (0x10000 + (code - 0xD800) * 0x400 + (low - 0xDC00)), more)
            else (Text.replacement, rest)
        | none => (Text.replacement, rest)
    | _ => (Text.replacement, rest)
  else if 0xDC00 ≤ code && code < 0xE000 then (Text.replacement, rest)
  else (Char.ofNat code, rest)

/-- The character an escape stands for, behind its backslash. -/
def unescape? : Bytes → Option (Char × Bytes)
  | 0x22 :: rest => some ('"', rest)
  | 0x5C :: rest => some ('\\', rest)
  | 0x2F :: rest => some ('/', rest)
  | 0x62 :: rest => some (Char.ofNat 0x08, rest)
  | 0x66 :: rest => some (Char.ofNat 0x0C, rest)
  | 0x6E :: rest => some ('\n', rest)
  | 0x72 :: rest => some ('\r', rest)
  | 0x74 :: rest => some ('\t', rest)
  | 0x75 :: rest => (hex4? rest).map (fun (code, rest) => unicode code rest)
  | _ => none

/-- The rest of a string, up to its closing quote; `fuel` bounds the number of characters. -/
def stringFrom? : (fuel : Nat) → Bytes → List Char → Option (String × Bytes)
  | 0, _, _ => none
  | _, [], _ => none
  | fuel + 1, b :: rest, read =>
      if b == 0x22 then some (String.ofList read.reverse, rest)
      else if b == 0x5C then
        match unescape? rest with
        | some (c, rest) => stringFrom? fuel rest (c :: read)
        | none => none
      else if b < 0x20 then none
      else match Text.decodeChar? (b :: rest) with
        | some (c, rest) => stringFrom? fuel rest (c :: read)
        | none => stringFrom? fuel rest (Text.replacement :: read)

/-- A string, behind its opening quote; `fuel` bounds the number of characters. -/
def string? (fuel : Nat) (bs : Bytes) : Option (String × Bytes) := stringFrom? fuel bs []

/-! ## §3. Values. -/

/-- How deep lists and objects may be nested. -/
def deepest : Nat := 10000

mutual

/-- A value; `fuel` bounds the number of steps and `depth` says how deep it is nested. -/
def value? : (fuel depth : Nat) → Bytes → Option (Value × Bytes)
  | 0, _, _ => none
  | fuel + 1, depth, bs =>
      match skipBlank bs with
      | 0x6E :: 0x75 :: 0x6C :: 0x6C :: rest => some (.null, rest)
      | 0x74 :: 0x72 :: 0x75 :: 0x65 :: rest => some (.bool true, rest)
      | 0x66 :: 0x61 :: 0x6C :: 0x73 :: 0x65 :: rest => some (.bool false, rest)
      | 0x22 :: rest => (string? fuel rest).map (fun (s, rest) => (.string s, rest))
      | 0x5B :: rest =>
          if depth ≥ deepest then none
          else match skipBlank rest with
            | 0x5D :: rest => some (.array [], rest)
            | rest => items? fuel (depth + 1) rest []
      | 0x7B :: rest =>
          if depth ≥ deepest then none
          else match skipBlank rest with
            | 0x7D :: rest => some (.object [], rest)
            | rest => fields? fuel (depth + 1) rest []
      | bs => (number? bs).map (fun (text, rest) => (.number text, rest))

/-- The items of a list, up to its closing bracket. -/
def items? : (fuel depth : Nat) → Bytes → List Value → Option (Value × Bytes)
  | 0, _, _, _ => none
  | fuel + 1, depth, bs, read =>
      match value? fuel depth bs with
      | none => none
      | some (v, rest) =>
          match skipBlank rest with
          | 0x2C :: rest => items? fuel depth rest (v :: read)
          | 0x5D :: rest => some (.array (v :: read).reverse, rest)
          | _ => none

/-- The fields of an object, up to its closing brace. -/
def fields? : (fuel depth : Nat) → Bytes → List (String × Value) → Option (Value × Bytes)
  | 0, _, _, _ => none
  | fuel + 1, depth, bs, read =>
      match skipBlank bs with
      | 0x22 :: rest =>
          match string? fuel rest with
          | none => none
          | some (key, rest) =>
              match skipBlank rest with
              | 0x3A :: rest =>
                  match value? fuel depth rest with
                  | none => none
                  | some (v, rest) =>
                      match skipBlank rest with
                      | 0x2C :: rest => fields? fuel depth rest ((key, v) :: read)
                      | 0x7D :: rest => some (.object ((key, v) :: read).reverse, rest)
                      | _ => none
              | _ => none
      | _ => none

end

/-- The value that bytes hold; nothing but white space may follow it. -/
def parse? (bs : Bytes) : Option Value := do
  let (v, rest) ← value? (2 * bs.length + 2) 0 bs
  if (skipBlank rest).isEmpty then some v else none

end Resumable.Json
