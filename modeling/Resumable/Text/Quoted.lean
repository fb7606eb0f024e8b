/-
  Resumable.Text.Quoted — text in double quotes for messages.

  A quoted text shows every printable character as it is, apart from the quote and the
  backslash; the usual control characters get their letter and the others a numeric escape.
-/
import Resumable.Text.Bytes
import Resumable.Text.Printable

namespace Resumable.Text

/-- How one character is written between double quotes; `ascii` leaves only ASCII as it is. -/
def quotedChar (ascii : Bool) (c : Char) : List Char :=
  if c == '"' || c == '\\' then ['\\', c]
  else if isPrintable c && (!ascii || c.toNat < 0x80) then [c]
  else match c.toNat with
    | 0x07 => ['\\', 'a']
    | 0x08 => ['\\', 'b']
    | 0x0C => ['\\', 'f']
    | 0x0A => ['\\', 'n']
    | 0x0D => ['\\', 'r']
    | 0x09 => ['\\', 't']
    | 0x0B => ['\\', 'v']
    | n =>
        if n < 0x20 || n == 0x7F then '\\' :: 'x' :: hexPadded 2 n
        else if n < 0x10000 then '\\' :: 'u' :: hexPadded 4 n
        else '\\' :: 'U' :: hexPadded 8 n

/-- Text in double quotes. -/
def quoted (s : String) : String :=
  String.ofList ('"' :: s.toList.flatMap (quotedChar false) ++ ['"'])

/-- Text in double quotes, in ASCII only. -/
def quotedAscii (s : String) : String :=
  String.ofList ('"' :: s.toList.flatMap (quotedChar true) ++ ['"'])

/-- Whether a text can stand unchanged between backquotes: it holds no backquote and no control
    character but tab. -/
def canBackquote (s : String) : Bool :=
  s.toList.all (fun c =>
    c == '\t' || (0x20 ≤ c.toNat && c != '\x60' && c.toNat != 0x7F && c.toNat != 0xFEFF))

end Resumable.Text
