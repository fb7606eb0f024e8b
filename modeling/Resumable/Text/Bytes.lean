/-
  Resumable.Text.Bytes — bytes and the characters they encode.

  Documents and codes arrive as bytes.  `decodeChar?` reads one character by the UTF-8 rules: no
  overlong form, no surrogate, nothing above U+10FFFF.  Where bytes that are no text have to be
  shown, `lossyText` shows U+FFFD for each byte that belongs to no character.  Digests and escapes
  are written in hexadecimal digits.
-/
namespace Resumable

/-- A sequence of bytes. -/
abbrev Bytes := List UInt8

namespace Text

/-! ## §1. Characters. -/

/-- The UTF-8 bytes of a text. -/
def bytesOf (s : String) : Bytes := s.toUTF8.toList

/-- The six payload bits of a continuation byte. -/
def tailBits? (b : UInt8) : Option Nat :=
  if 0x80 ≤ b.toNat && b.toNat < 0xC0 then some (b.toNat - 0x80) else none

/-- The character of a code point, unless it is a surrogate or too large. -/
def charOf? (code : Nat) : Option Char :=
  if h : code.isValidChar then some (Char.ofNatAux code h) else none

/-- How many bytes a character has that starts with the given byte. -/
def sequenceWidth? (lead : UInt8) : Option Nat :=
  if lead < 0x80 then some 1
  else if lead < 0xC0 then none
  else if lead < 0xE0 then some 2
  else if lead < 0xF0 then some 3
  else if lead < 0xF8 then some 4
  else none

/-- Reads one character and the bytes after it. -/
def decodeChar? : Bytes → Option (Char × Bytes)
  | [] => none
  | a :: rest =>
      let lead := a.toNat
      if lead < 0x80 then do return (← charOf? lead, rest)
      else if lead < 0xC2 then none
      else if lead < 0xE0 then
        match rest with
        | b :: rest => do
            let code := (lead - 0xC0) * 64 + (← tailBits? b)
            return (← charOf? code, rest)
        | _ => none
      else if lead < 0xF0 then
        match rest with
        | b :: c :: rest => do
            let code := ((lead - 0xE0) * 64 + (← tailBits? b)) * 64 + (← tailBits? c)
            if code < 0x800 then none else return (← charOf? code, rest)
        | _ => none
      else if lead < 0xF5 then
        match rest with
        | b :: c :: d :: rest => do
            let high := ((lead - 0xF0) * 64 + (← tailBits? b)) * 64 + (← tailBits? c)
            let code := high * 64 + (← tailBits? d)
            if code < 0x10000 then none else return (← charOf? code, rest)
        | _ => none
      else none

/-- The text that bytes encode, if they encode one. -/
def textOf? (bytes : Bytes) : Option String :=
  String.fromUTF8? ⟨bytes.toArray⟩

/-- What stands for a byte that belongs to no character. -/
def replacement : Char := Char.ofNat 0xFFFD

/-- The characters of bytes, `fuel` of them at most. -/
def lossyChars : (fuel : Nat) → Bytes → List Char
  | 0, _ => []
  | _, [] => []
  | fuel + 1, b :: rest =>
      match decodeChar? (b :: rest) with
      | some (c, rest) => c :: lossyChars fuel rest
      | none => replacement :: lossyChars fuel rest

/-- The text of bytes, with U+FFFD for each byte that belongs to no character. -/
def lossyText (bytes : Bytes) : String := String.ofList (lossyChars bytes.length bytes)

/-! ## §2. Hexadecimal digits. -/

/-- The lower-case digit of a value below sixteen. -/
def hexDigit (n : Nat) : Char :=
  if n < 10 then Char.ofNat (0x30 + n) else Char.ofNat (0x57 + n)

/-- The value of a hexadecimal digit of either case. -/
def hexValue? (c : Char) : Option Nat :=
  if '0' ≤ c && c ≤ '9' then some (c.toNat - 0x30)
  else if 'a' ≤ c && c ≤ 'f' then some (c.toNat - 0x57)
  else if 'A' ≤ c && c ≤ 'F' then some (c.toNat - 0x37)
  else none

/-- A number in exactly `width` hexadecimal digits; higher digits are dropped. -/
def hexPadded : (width : Nat) → Nat → List Char
  | 0, _ => []
  | w + 1, n => hexPadded w (n / 16) ++ [hexDigit (n % 16)]

/-- Bytes as pairs of hexadecimal digits. -/
def hexOfBytes (bytes : Bytes) : String :=
  String.ofList (bytes.flatMap (fun b => hexPadded 2 b.toNat))

/-- The bytes a text of pairs of hexadecimal digits stands for. -/
def bytesOfHex? : List Char → Option Bytes
  | [] => some []
  | a :: b :: rest => do
      let hi ← hexValue? a
      let lo ← hexValue? b
      let more ← bytesOfHex? rest
      return UInt8.ofNat (16 * hi + lo) :: more
  | [_] => none

end Text

end Resumable
