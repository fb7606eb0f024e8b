/-
  Resumable.Toml.Literal — the texts, numbers and moments of a settings document.

  A scan finds where a literal ends; a check then says whether what was scanned is a value.
-/
import Resumable.Text.Bytes
import Resumable.Text.Decimal
import Resumable.Toml.Value

namespace Resumable.Toml

/-! ## §1. Texts. -/

/-- Whether a character ends a line. -/
def isLineEnd (c : Char) : Bool := c == '\n' || c == '\r'

/-- Whether a character is blank within a line. -/
def isBlank (c : Char) : Bool := c == ' ' || c == '\t'

/-- The raw content of a text on one line, behind its opening quote.  A backslash protects the
    character after it if the text has escapes. -/
def shortRaw? (quote : Char) (escapes : Bool) : List Char → (read : List Char) →
    Option (List Char × List Char)
  | [], _ => none
  | c :: rest, read =>
      if c == quote then some (read.reverse, rest)
      else if isLineEnd c then none
      else if escapes && c == '\\' then
        match rest with
        | d :: rest => shortRaw? quote escapes rest (d :: c :: read)
        | [] => none
      else shortRaw? quote escapes rest (c :: read)

/-- What a run of quotes does to a text over several lines: fewer than three belong to it, the
    last three of at most five end it.  A sixth is allowed only right behind a backslash. -/
def closes? (escapes : Bool) (run : Nat) (read : List Char) : Option Bool :=
  if run < 3 then some false
  else if run < 6 || (run == 6 && escapes && read.head? == some '\\') then some true
  else none

/-- The raw content of a text over several lines, behind its three opening quotes; `run` counts
    the quotes right before the next character. -/
def longRaw? (quote : Char) (escapes : Bool) : List Char → (run : Nat) → (read : List Char) →
    Option (List Char × List Char)
  | [], run, read =>
      match closes? escapes run read with
      | some true => some ((List.replicate (run - 3) quote ++ read).reverse, [])
      | _ => none
  | c :: rest, run, read =>
      if c == quote then longRaw? quote escapes rest (run + 1) read
      else match closes? escapes run read with
        | none => none
        | some true => some ((List.replicate (run - 3) quote ++ read).reverse, c :: rest)
        | some false =>
            let read := List.replicate run quote ++ read
            if escapes && c == '\\' then
              match rest with
              | d :: rest => longRaw? quote escapes rest 0 (d :: c :: read)
              | [] => none
            else longRaw? quote escapes rest 0 (c :: read)

/-- A text without the line break it starts with. -/
def dropFirstBreak : List Char → List Char
  | '\n' :: rest => rest
  | '\r' :: '\n' :: rest => rest
  | cs => cs

/-- A text without backslashes at the end of a line and the blanks and breaks behind them. -/
def joinLines : (joining : Bool) → List Char → List Char
  | _, [] => []
  | _, '\\' :: '\\' :: rest => '\\' :: '\\' :: joinLines false rest
  | joining, c :: rest =>
      if joining && (isBlank c || isLineEnd c) then joinLines true rest
      else if c == '\\' &&
          (rest.takeWhile (fun d => isBlank d || isLineEnd d)).contains '\n' then
        joinLines true rest
      else c :: joinLines false rest

/-- The character that hexadecimal digits name. -/
def named? (digits : List Char) : Option Char := do
  Text.charOf? (← Text.digitsValue? 16 digits)

/-- The character a one-letter escape stands for. -/
def letter? (c : Char) : Option Char :=
  if c == 'b' then some (Char.ofNat 0x08)
  else if c == 't' then some '\t'
  else if c == 'n' then some '\n'
  else if c == 'f' then some (Char.ofNat 0x0C)
  else if c == 'r' then some '\r'
  else if c == 'e' then some (Char.ofNat 0x1B)
  else if c == '"' then some '"'
  else if c == '\\' then some '\\'
  else none

/-- Raw content with its escapes resolved. -/
def unescape? : List Char → Option (List Char)
  | [] => some []
  | '\\' :: 'x' :: a :: b :: rest => do
      let c ← named? [a, b]
      return c :: (← unescape? rest)
  | '\\' :: 'u' :: a :: b :: c :: d :: rest => do
      let c ← named? [a, b, c, d]
      return c :: (← unescape? rest)
  | '\\' :: 'U' :: a :: b :: c :: d :: e :: f :: g :: h :: rest => do
      let c ← named? [a, b, c, d, e, f, g, h]
      return c :: (← unescape? rest)
  | '\\' :: e :: rest => do
      let c ← letter? e
      return c :: (← unescape? rest)
  | c :: rest => if c == '\\' then none else do return c :: (← unescape? rest)

/-- A text on one line, with its opening quote, and what follows it. -/
def shortText? : List Char → Option (String × List Char)
  | '"' :: rest => do
      let (raw, rest) ← shortRaw? '"' true rest []
      return (String.ofList (← unescape? raw), rest)
  | '\'' :: rest => do
      let (raw, rest) ← shortRaw? '\'' false rest []
      return (String.ofList raw, rest)
  | _ => none

/-- A text of either form, with its opening quotes, and what follows it. -/
def text? : List Char → Option (String × List Char)
  | '"' :: '"' :: '"' :: rest => do
      let (raw, rest) ← longRaw? '"' true rest 0 []
      return (String.ofList (← unescape? (joinLines false (dropFirstBreak raw))), rest)
  | '\'' :: '\'' :: '\'' :: rest => do
      let (raw, rest) ← longRaw? '\'' false rest 0 []
      return (String.ofList (dropFirstBreak raw), rest)
  | cs => shortText? cs

/-! ## §2. Moments. -/

/-- A number of exactly `width` digits. -/
def fixed? (width : Nat) (cs : List Char) : Option (Nat × List Char) := do
  let digits := cs.take width
  if digits.length == width && digits.all Char.isDigit then
    return (← Text.digitsValue? 10 digits, cs.drop width)
  else none

/-- A date that exists. -/
def date? (cs : List Char) : Option (List Char) := do
  let (year, rest) ← fixed? 4 cs
  let '-' :: rest := rest | none
  let (month, rest) ← fixed? 2 rest
  let '-' :: rest := rest | none
  let (day, rest) ← fixed? 2 rest
  if Text.isDate year month day then some rest else none

/-- A time of day; the seconds may be left out, and may have a fraction. -/
def time? (cs : List Char) : Option (List Char) := do
  let (hour, rest) ← fixed? 2 cs
  let ':' :: rest := rest | none
  let (minute, rest) ← fixed? 2 rest
  match rest with
  | ':' :: more =>
      let (second, rest) ← fixed? 2 more
      if !Text.isTime hour minute second then none
      else match rest with
        | '.' :: d :: more =>
            if d.isDigit then some (more.dropWhile Char.isDigit) else some rest
        | _ => some rest
  | _ => if Text.isTime hour minute 0 then some rest else none

/-- Whether a text is a moment: a date, a time of day, or both with or without a zone.  The
    letters `T` and `Z` may be small, and a space may stand for the first. -/
def isMoment (cs : List Char) : Bool :=
  let cs := cs.map (fun c => if c == 'z' then 'Z' else if c == 't' || c == ' ' then 'T' else c)
  match date? cs with
  | some [] => true
  | some ('T' :: rest) =>
      match time? rest with
      | some zone => zone.isEmpty || Text.isZone zone
      | none => false
  | some _ => false
  | none => time? cs == some []

/-! ## §3. Numbers. -/

/-- Whether every underscore stands between two digits and the text ends with a digit.  Digits
    of the largest base count here. -/
def underscoresFit (cs : List Char) : Bool :=
  let step (state : Option Bool) (c : Char) : Option Bool := do
    let digit ← state
    if c == '_' && !digit then none else some (Text.hexValue? c).isSome
  cs.foldl step (some false) == some true

/-- Whether a number is written with a zero too many in front. -/
def hasLeadingZero : List Char → Bool
  | '0' :: m :: _ => !(m == 'b' || m == 'o' || m == 'x')
  | s :: '0' :: _ :: _ => s == '-' || s == '+'
  | _ => false

/-- Whether every point has a digit behind it. -/
def pointsFit : List Char → Bool
  | '.' :: d :: rest => d.isDigit && pointsFit (d :: rest)
  | ['.'] => false
  | _ :: rest => pointsFit rest
  | [] => true

/-- An integer of sixty-four bits, in one of four bases. -/
def integer? (cs : List Char) : Option Int := do
  if underscoresFit cs && !hasLeadingZero cs then
    let n ← Text.signed? Text.unsigned? (cs.filter (· != '_'))
    if Text.fitsSigned n then some n else none
  else none

/-- The non-empty parts of a number between points and exponent marks; `part` is the part read so
    far, last character first. -/
def numberParts : List Char → (part : List Char) → List (List Char)
  | [], part => if part.isEmpty then [] else [part.reverse]
  | c :: rest, part =>
      if c == '.' || c == 'e' || c == 'E' then numberParts [] part ++ numberParts rest []
      else numberParts rest (c :: part)

/-- Whether a text is a decimal number that fits a double. -/
def isDecimal (cs : List Char) : Bool :=
  let parts := numberParts cs []
  let digits := (cs.filter (· != '_')).dropWhile (fun c => c == '+' || c == '-')
  parts.all underscoresFit && !hasLeadingZero (parts.headD []) && pointsFit cs &&
    match Text.decimalParts? digits with
    | some (whole, fraction, exponent) => Text.partsFit whole fraction exponent
    | none => false

/-- Whether a character is a digit of the base a letter marks. -/
def isDigitOf (mark c : Char) : Bool :=
  let base := if mark == 'x' then 16 else if mark == 'o' then 8 else 2
  (Text.hexValue? c).any (· < base)

/-- Whether a letter marks a base. -/
def isBaseMark (c : Char) : Bool := c == 'x' || c == 'o' || c == 'b'

/-- An integer or a decimal number, told apart by a point or an exponent mark. -/
def plainNumber? (sign cs : List Char) : Option (Value × List Char) := do
  let (whole, rest) := cs.span (fun c => c.isDigit || c == '_')
  if rest.head?.any (fun c => c == '.' || c == 'e' || c == 'E') then
    let (more, rest) := rest.span (fun c => c.isDigit || "_.-+eE".contains c)
    let all := sign ++ whole ++ more
    if isDecimal all then some (.decimal (String.ofList all), rest) else none
  else do return (.integer (← integer? (sign ++ whole)), rest)

/-- A number or a moment, and what follows it. -/
def number? (cs : List Char) : Option (Value × List Char) :=
  match cs with
  | '0' :: m :: rest =>
      if isBaseMark m then do
        if !rest.head?.any (isDigitOf m) then none
        else
          let (digits, rest) := rest.span (fun c => isDigitOf m c || c == '_')
          return (.integer (← integer? ('0' :: m :: digits)), rest)
      else numberOrMoment? cs
  | s :: c :: rest =>
      if s == '+' || s == '-' then
        match c :: rest with
        | 'i' :: 'n' :: 'f' :: rest => some (.decimal (String.ofList [s, 'i', 'n', 'f']), rest)
        | 'n' :: 'a' :: 'n' :: rest => some (.decimal (String.ofList [s, 'n', 'a', 'n']), rest)
        | _ =>
            if !c.isDigit || (c == '0' && rest.head?.any isBaseMark) then none
            else plainNumber? [s] (c :: rest)
      else numberOrMoment? cs
  | _ => numberOrMoment? cs
where
  /-- A number without sign or base, or a moment if its first digits end at a dash or colon. -/
  numberOrMoment? (cs : List Char) : Option (Value × List Char) :=
    let (digits, rest) := cs.span Char.isDigit
    if digits.isEmpty then none
    else if rest.head?.any (fun c => c == '-' || c == ':') then
      let (all, rest) := cs.span (fun c => c.isDigit || "-:Tt .Zz+".contains c)
      let all := (all.reverse.dropWhile isBlank).reverse
      if isMoment all then some (.moment (String.ofList all), rest) else none
    else plainNumber? [] cs

/-- A literal that is not a text, and what follows it. -/
def literal? : List Char → Option (Value × List Char)
  | 't' :: 'r' :: 'u' :: 'e' :: rest => some (.flag true, rest)
  | 'f' :: 'a' :: 'l' :: 's' :: 'e' :: rest => some (.flag false, rest)
  | 'i' :: 'n' :: 'f' :: rest => some (.decimal "inf", rest)
  | 'n' :: 'a' :: 'n' :: rest => some (.decimal "nan", rest)
  | cs => number? cs

end Resumable.Toml
