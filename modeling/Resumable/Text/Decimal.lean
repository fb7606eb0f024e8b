/-
  Resumable.Text.Decimal — numbers and dates written in text.

  Integers may carry a sign and a base mark (`0x`, `0o`, `0b`, a leading zero for octal);
  decimal fractions are checked for their form and for whether they fit a double.  A date has to
  exist in the calendar, and a time of day on the clock.
-/
import Resumable.Text.Bytes

namespace Resumable.Text

/-! ## §1. Numbers. -/

/-- The value of digits in a base, or `none` if there is a character that is no digit of it.  No
    digits make zero. -/
def digitsValue? (base : Nat) : List Char → Option Nat
  | cs => cs.foldlM (fun n c => do
      let d ← hexValue? c
      if d < base then some (base * n + d) else none) 0

/-- The value of an unsigned integer whose base is given by its first characters. -/
def unsigned? (cs : List Char) : Option Nat :=
  match cs with
  | [] => none
  | '0' :: b :: c :: rest =>
      if b == 'x' || b == 'X' then digitsValue? 16 (c :: rest)
      else if b == 'o' || b == 'O' then digitsValue? 8 (c :: rest)
      else if b == 'b' || b == 'B' then digitsValue? 2 (c :: rest)
      else digitsValue? 8 (b :: c :: rest)
  | '0' :: rest => digitsValue? 8 rest
  | _ => digitsValue? 10 cs

/-- An integer with an optional sign, its digits read by `magnitude`. -/
def signed? (magnitude : List Char → Option Nat) (cs : List Char) : Option Int :=
  match cs with
  | '+' :: rest => (magnitude rest).map Int.ofNat
  | '-' :: rest => (magnitude rest).map (fun n => -(n : Int))
  | _ => (magnitude cs).map Int.ofNat

/-- Digits in a base, at least one. -/
def someDigits? (base : Nat) (cs : List Char) : Option Nat :=
  if cs.isEmpty then none else digitsValue? base cs

/-- Whether an integer fits 64 bits with a sign. -/
def fitsSigned (n : Int) : Bool := -0x8000000000000000 ≤ n && n < 0x8000000000000000

/-- Whether a natural number fits 64 bits without a sign. -/
def fitsUnsigned (n : Nat) : Bool := n < 0x10000000000000000

/-- Whether `mantissa · 10 ^ exponent` rounds to a finite double. -/
def fitsDouble (mantissa : Nat) (exponent : Int) : Bool :=
  let bound := Nat.pow 2 1024 - Nat.pow 2 970
  let size : Int := (Nat.toDigits 10 mantissa).length + exponent
  if mantissa == 0 || size < 300 then true
  else if 400 < size then false
  else if exponent < 0 then mantissa < bound * Nat.pow 10 exponent.natAbs
  else mantissa * Nat.pow 10 exponent.toNat < bound

/-- The parts of a decimal number without sign: digits before the point, digits after it, and
    the exponent.  `none` if the text has another form. -/
def decimalParts? (cs : List Char) : Option (List Char × List Char × Int) := do
  let (whole, rest) := cs.span Char.isDigit
  let (fraction, rest) := match rest with
    | '.' :: rest => rest.span Char.isDigit
    | _ => ([], rest)
  match rest with
  | [] => return (whole, fraction, 0)
  | e :: rest =>
      if e == 'e' || e == 'E' then
        let digits := match rest with
          | '+' :: ds => ds
          | '-' :: ds => ds
          | ds => ds
        if digits.isEmpty || !digits.all Char.isDigit then none
        else return (whole, fraction, ← signed? (digitsValue? 10) rest)
      else none

/-- Whether decimal parts fit a double. -/
def partsFit (whole fraction : List Char) (exponent : Int) : Bool :=
  match digitsValue? 10 (whole ++ fraction) with
  | some m => fitsDouble m (exponent - fraction.length)
  | none => false

/-! ## §2. Dates. -/

/-- The number of days of a month. -/
def daysIn (year month : Nat) : Nat :=
  if month == 2 then
    if year % 4 == 0 && (year % 100 != 0 || year % 400 == 0) then 29 else 28
  else if month == 4 || month == 6 || month == 9 || month == 11 then 30
  else 31

/-- Whether a date exists. -/
def isDate (year month day : Nat) : Bool :=
  1 ≤ month && month ≤ 12 && 1 ≤ day && day ≤ daysIn year month

/-- Whether a time of day exists. -/
def isTime (hour minute second : Nat) : Bool := hour < 24 && minute < 60 && second < 60

/-- Whether the text is a time zone: `Z`, or hours and minutes with a sign. -/
def isZone : List Char → Bool
  | ['Z'] => true
  | [s, a, b, ':', c, d] =>
      (s == '+' || s == '-') && [a, b, c, d].all Char.isDigit &&
        10 * (a.toNat - 0x30) + (b.toNat - 0x30) ≤ 24 &&
        10 * (c.toNat - 0x30) + (d.toNat - 0x30) ≤ 60
  | _ => false

end Resumable.Text
