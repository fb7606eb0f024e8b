/-
  Resumable.Text.Base64 — bytes written in groups of four characters.

  Each group of four characters stands for three bytes; the last group may stand for fewer and is
  then filled up with equals signs.  Line breaks do not count.
-/
import Resumable.Text.Bytes

namespace Resumable.Text

/-- The value of a digit of base sixty-four. -/
def sixtyFourValue? (c : Char) : Option Nat :=
  if 'A' ≤ c && c ≤ 'Z' then some (c.toNat - 0x41)
  else if 'a' ≤ c && c ≤ 'z' then some (c.toNat - 0x61 + 26)
  else if '0' ≤ c && c ≤ '9' then some (c.toNat - 0x30 + 52)
  else if c == '+' then some 62
  else if c == '/' then some 63
  else none

/-- The first `count` bytes of a number of three bytes, the most significant first. -/
def leadingBytes (count : Nat) (n : Nat) : Bytes :=
  [UInt8.ofNat (n / 65536), UInt8.ofNat (n / 256), UInt8.ofNat n].take count

/-- The bytes of groups of four characters. -/
def groupBytes? : List Char → Option Bytes
  | [] => some []
  | [a, b, '=', '='] => do
      return leadingBytes 1 ((← sixtyFourValue? a) * 262144 + (← sixtyFourValue? b) * 4096)
  | [a, b, c, '='] => do
      let high := (← sixtyFourValue? a) * 262144 + (← sixtyFourValue? b) * 4096
      return leadingBytes 2 (high + (← sixtyFourValue? c) * 64)
  | a :: b :: c :: d :: rest => do
      let high := (← sixtyFourValue? a) * 262144 + (← sixtyFourValue? b) * 4096
      let low := (← sixtyFourValue? c) * 64 + (← sixtyFourValue? d)
      return leadingBytes 3 (high + low) ++ (← groupBytes? rest)
  | _ => none

/-- The bytes that a text in base sixty-four stands for. -/
def bytesOfBase64? (s : String) : Option Bytes :=
  groupBytes? (s.toList.filter (fun c => c != '\n' && c != '\r'))

end Resumable.Text
