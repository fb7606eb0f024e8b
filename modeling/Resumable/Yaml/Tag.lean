/-
  Resumable.Yaml.Tag — the type of a plain scalar.

  A scalar without a tag and without quotes is typed by its text alone: empty and `~` are null, a
  handful of words are booleans, what reads as a number or a date is one, and everything else is
  a string.
-/
import Resumable.Text.Decimal
import Resumable.Yaml.Timestamp

namespace Resumable.Yaml

/-- The tag of a node in its short form. -/
abbrev Tag := String

namespace Tag

def null : Tag := "!!null"
def bool : Tag := "!!bool"
def int : Tag := "!!int"
def float : Tag := "!!float"
def timestamp : Tag := "!!timestamp"
def str : Tag := "!!str"
def seq : Tag := "!!seq"
def map : Tag := "!!map"
def merge : Tag := "!!merge"
def binary : Tag := "!!binary"

/-- What the tags of the standard types start with. -/
def standard : String := "tag:yaml.org,2002:"

/-- The short form of a tag. -/
def short (tag : String) : Tag :=
  if tag.startsWith standard then "!!" ++ (tag.drop standard.length).toString else tag

/-- The value of a word that used to be a boolean and is a string now: `y`, `yes`, `on` and their
    opposites.  A longer word may be capitalised or in capitals. -/
def formerBoolean? (s : String) : Option Bool :=
  if ["y", "Y", "yes", "Yes", "YES", "on", "On", "ON"].contains s then some true
  else if ["n", "N", "no", "No", "NO", "off", "Off", "OFF"].contains s then some false
  else none

/-- An integer of at most 64 bits: one with an optional sign, or one beyond those. -/
def sixtyFour? (magnitude : List Char → Option Nat) (cs : List Char) : Option Int :=
  ((Text.signed? magnitude cs).filter Text.fitsSigned) <|>
    (((magnitude cs).filter Text.fitsUnsigned).map Int.ofNat)

/-- The value of an integer of at most 64 bits. -/
def integer? (cs : List Char) : Option Int := sixtyFour? Text.unsigned? cs

/-- The value of `0b` or `0o`, possibly negative, before an integer of that base. -/
def markedInteger? (cs : List Char) : Option Int :=
  let negative base (rest : List Char) : Option Int :=
    ((Text.someDigits? base rest).map (fun n => -(n : Int))).filter Text.fitsSigned
  match cs with
  | '0' :: 'b' :: rest => sixtyFour? (Text.someDigits? 2) rest
  | '0' :: 'o' :: rest => sixtyFour? (Text.someDigits? 8) rest
  | '-' :: '0' :: 'b' :: rest => negative 2 rest
  | '-' :: '0' :: 'o' :: rest => negative 8 rest
  | _ => none

/-- Whether the text is a decimal number that fits a double. -/
def isDecimal (cs : List Char) : Bool :=
  let body := match cs with
    | '+' :: rest => rest
    | '-' :: rest => rest
    | _ => cs
  match Text.decimalParts? body with
  | some (whole, fraction, exponent) =>
      (!whole.isEmpty || !fraction.isEmpty) && Text.partsFit whole fraction exponent
  | none => false

/-- Whether every underscore stands between two digits. -/
def underscoresSeparate : (afterDigit : Bool) → List Char → Bool
  | _, [] => true
  | afterDigit, '_' :: rest =>
      afterDigit && rest.head?.any Char.isDigit && underscoresSeparate false rest
  | _, c :: rest => underscoresSeparate c.isDigit rest

/-- The type of a number or a date. -/
def ofNumber (cs : List Char) : Tag :=
  let plain := cs.filter (· != '_')
  if isTimestamp cs then timestamp
  else if (integer? plain).isSome then int
  else if isDecimal plain then float
  else if (markedInteger? plain).isSome then int
  else str

/-- The type of a plain scalar. -/
def ofPlain (text : String) : Tag :=
  if ["", "~", "null", "Null", "NULL"].contains text then null
  else if ["true", "True", "TRUE", "false", "False", "FALSE"].contains text then bool
  else if [".nan", ".NaN", ".NAN", ".inf", ".Inf", ".INF", "+.inf", "+.Inf", "+.INF",
      "-.inf", "-.Inf", "-.INF"].contains text then float
  else
    let cs := text.toList
    match cs with
    | [] => null
    | c :: _ =>
        if c.isDigit || c == '+' || c == '-' then ofNumber cs
        else if c == '.' && underscoresSeparate false cs && isDecimal (cs.filter (· != '_')) then
          float
        else str

/-- Whether a text is what a tag says.  An integer that fits 64 bits with a sign is also a decimal
    number; a larger one is none. -/
def suits (tag : Tag) (text : String) : Bool :=
  let natural := ofPlain text
  let plain := text.toList.filter (· != '_')
  tag == natural ||
    (tag == float && natural == int &&
      ((integer? plain) <|> (markedInteger? plain)).any Text.fitsSigned)

end Tag

end Resumable.Yaml
