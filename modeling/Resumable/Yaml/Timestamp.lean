/-
  Resumable.Yaml.Timestamp — plain scalars that are dates.

  A timestamp is a date with a four-digit year, or such a date followed by a time of day: after
  the letter `T` with a time zone, or after spaces without one.  Months, days, hours, minutes and
  seconds have one or two digits; the day has to exist.
-/
import Resumable.Text.Decimal

namespace Resumable.Yaml

/-- One or two digits. -/
def shortNumber? : List Char → Option (Nat × List Char)
  | a :: rest =>
      if a.isDigit then
        match rest with
        | b :: more =>
            if b.isDigit then some (10 * (a.toNat - 0x30) + (b.toNat - 0x30), more)
            else some (a.toNat - 0x30, rest)
        | [] => some (a.toNat - 0x30, rest)
      else none
  | [] => none

/-- A given character. -/
def expect? (c : Char) : List Char → Option (List Char)
  | d :: rest => if c == d then some rest else none
  | [] => none

/-- A date that exists, and what follows it. -/
def date? (cs : List Char) : Option (List Char) := do
  let (digits, rest) := cs.span Char.isDigit
  if digits.length != 4 then none
  else
    let year ← (String.ofList digits).toNat?
    let (month, rest) ← shortNumber? (← expect? '-' rest)
    let (day, rest) ← shortNumber? (← expect? '-' rest)
    if Text.isDate year month day then some rest else none

/-- A time of day with an optional fraction, and what follows it. -/
def timeOfDay? (cs : List Char) : Option (List Char) := do
  let (hour, rest) ← shortNumber? cs
  let (minute, rest) ← shortNumber? (← expect? ':' rest)
  let (second, rest) ← shortNumber? (← expect? ':' rest)
  if Text.isTime hour minute second then
    match rest with
    | p :: d :: _ =>
        if (p == '.' || p == ',') && d.isDigit then some ((rest.drop 1).dropWhile Char.isDigit)
        else some rest
    | _ => some rest
  else none

/-- Whether a plain scalar is a timestamp. -/
def isTimestamp (cs : List Char) : Bool :=
  match date? cs with
  | none => false
  | some [] => true
  | some (c :: rest) =>
      if c == 'T' || c == 't' then (timeOfDay? rest).any Text.isZone
      else c == ' ' && (timeOfDay? (rest.dropWhile (· == ' '))).any List.isEmpty

end Resumable.Yaml
