/-
  Resumable.Text.Template — messages with holes.

  A template is text in which `%s`, `%v`, `%q`, `%x`, `%t` and the like stand for arguments, in
  order.  A hole may carry flags, a width and a precision, and may name the argument it starts
  with, as `%[2]s` does.  Nothing can go wrong: a hole whose verb does not suit its argument, a
  missing argument and a left-over one are spelled out in the result.

  A template is read into pieces first, without a look at the arguments; then its holes are filled
  from the left.
-/
import Resumable.Text.Quoted

namespace Resumable.Text

/-- An argument of a template. -/
inductive Arg where
  | text (value : String)
  | flag (value : Bool)
  deriving Repr, DecidableEq

namespace Arg

/-- The name of the argument's type. -/
def typeName : Arg → String
  | text _ => "string"
  | flag _ => "bool"

/-- The argument as plain text. -/
def plain : Arg → String
  | text s => s
  | flag b => if b then "true" else "false"

end Arg

/-! ## §1. Holes. -/

/-- How the text that fills a hole is shaped. -/
structure Shape where
  minus : Bool := false
  zero : Bool := false
  sharp : Bool := false
  space : Bool := false
  plus : Bool := false
  width : Nat := 0
  precision : Option Nat := none
  deriving Repr, DecidableEq

/-- Which argument comes next, as a hole may say in brackets. -/
inductive Index where
  /-- Nothing is said. -/
  | unsaid
  /-- What stands in brackets is no number, or the bracket is not closed. -/
  | malformed
  | number (n : Nat)
  deriving Repr, DecidableEq

/-- A width or a precision. -/
inductive Measure where
  | unsaid
  | number (n : Nat)
  /-- An argument is to say it, behind an index if it is a precision. -/
  | argument
  deriving Repr, DecidableEq

/-- What stands between the percent sign and the verb of a hole. -/
structure Hole where
  shape : Shape := {}
  first : Index := .unsaid
  width : Measure := .unsaid
  /-- The precision and the index in front of it, if there is a point. -/
  precision : Option (Index × Measure) := none
  last : Index := .unsaid
  deriving Repr, DecidableEq

/-- A piece of a template. -/
inductive Piece where
  | char (c : Char)
  | hole (h : Hole) (verb : Char)
  /-- A hole that the template ends in. -/
  | cutOff (h : Hole)
  deriving Repr, DecidableEq

/-! ## §2. Reading. -/

/-- A number beyond this takes no further digit. -/
def maxMeasure : Nat := 1000000

/-- The number that characters start with, and what is behind it; nothing is behind a number that
    is too large, which is none. -/
def readNumber (number : Option Nat) : List Char → Option Nat × List Char
  | [] => (number, [])
  | c :: rest =>
      if !c.isDigit then (number, c :: rest)
      else if number.any (maxMeasure < ·) then (none, [])
      else readNumber (some (10 * number.getD 0 + (c.toNat - 0x30))) rest

/-- An index, if characters start with one. -/
def readIndex : List Char → Index × List Char
  | '[' :: rest =>
      let inside := rest.takeWhile (· != ']')
      if rest.length < 2 || inside.length = rest.length then (.malformed, rest)
      else
        let index := match readNumber none inside with
          | (some n, []) => .number n
          | _ => .malformed
        (index, rest.drop (inside.length + 1))
  | cs => (.unsaid, cs)

/-- A width, or a precision behind its point and its index. -/
def readMeasure : List Char → Measure × List Char
  | '*' :: rest => (.argument, rest)
  | cs =>
      let (number, rest) := readNumber none cs
      (number.elim .unsaid .number, rest)

/-- A precision, at its point. -/
def readPrecision : List Char → Option (Index × Measure) × List Char
  | '.' :: rest =>
      let (index, rest) := readIndex rest
      let (measure, rest) := readMeasure rest
      (some (index, measure), rest)
  | cs => (none, cs)

/-- The flags of a hole. -/
def readFlags (s : Shape) : List Char → Shape × List Char
  | '-' :: rest => readFlags { s with minus := true } rest
  | '0' :: rest => readFlags { s with zero := true } rest
  | '#' :: rest => readFlags { s with sharp := true } rest
  | ' ' :: rest => readFlags { s with space := true } rest
  | '+' :: rest => readFlags { s with plus := true } rest
  | cs => (s, cs)

/-- Whether a number stands in the brackets of an index. -/
def Index.isNumber : Index → Bool
  | .number _ => true
  | _ => false

/-- Whether the last thing that a hole says is an index. -/
def Hole.endsInIndex (h : Hole) : Bool :=
  match h.precision with
  | some (index, measure) => index.isNumber && measure != .argument
  | none => h.first.isNumber && h.width != .argument

/-- A hole up to its verb, behind its percent sign. -/
def readHole (cs : List Char) : Hole × List Char :=
  let (shape, cs) := readFlags {} cs
  let (first, cs) := readIndex cs
  let (width, cs) := readMeasure cs
  let (precision, cs) := readPrecision cs
  let hole : Hole := { shape, first, width, precision }
  if hole.endsInIndex then (hole, cs)
  else
    let (last, cs) := readIndex cs
    ({ hole with last }, cs)

/-- The pieces of a template; every piece takes a character at least. -/
def pieces : (fuel : Nat) → List Char → List Piece
  | 0, _ | _, [] => []
  | fuel + 1, '%' :: rest =>
      match readHole rest with
      | (hole, verb :: rest) => .hole hole verb :: pieces fuel rest
      | (hole, []) => [.cutOff hole]
  | fuel + 1, c :: rest => .char c :: pieces fuel rest

/-! ## §3. Filling. -/

namespace Shape

/-- Fills the result up to the width. -/
def pad (h : Shape) (s : List Char) : List Char :=
  let fill := List.replicate (h.width - s.length) (if h.zero && !h.minus then '0' else ' ')
  if h.minus then s ++ fill else fill ++ s

/-- Cuts text at the precision. -/
def cut (h : Shape) (s : String) : String :=
  match h.precision with
  | none => s
  | some n => String.ofList (s.toList.take n)

/-- The first bytes of a text in hexadecimal digits, as many as the precision says: the sharp flag
    puts a mark in front, the space flag parts the bytes, and both mark each of them. -/
def hex (h : Shape) (upper : Bool) (s : List Char) : List Char :=
  let bytes := (String.ofList s).toUTF8.toList
  let bytes := match h.precision with
    | none => bytes
    | some n => bytes.take n
  let cased (cs : List Char) : List Char := if upper then cs.map Char.toUpper else cs
  let mark := if h.sharp then cased ['0', 'x'] else []
  let digits (b : UInt8) : List Char := cased (hexPadded 2 b.toNat)
  if bytes.isEmpty then []
  else if h.space then [' '].intercalate (bytes.map (fun b => mark ++ digits b))
  else mark ++ bytes.flatMap digits

/-- A text in quotes: the sharp flag asks for backquotes where they can be had, the plus flag for
    ASCII. -/
def quote (h : Shape) (s : String) : String :=
  if h.sharp && canBackquote s then "\x60" ++ s ++ "\x60"
  else if h.plus then quotedAscii s
  else quoted s

/-- An argument as it is shown where nothing else is asked for; `inQuotes` puts text in quotes. -/
def shown (h : Shape) (inQuotes : Bool) : Arg → List Char
  | .text s => h.pad (if inQuotes then quoted (h.cut s) else h.cut s).toList
  | a => h.pad a.plain.toList

/-- The text an argument puts into a hole of this shape.  An argument that does not suit the verb
    is shown with its type. -/
def fill (h : Shape) (verb : Char) (a : Arg) : List Char :=
  let unsuited := ['%', '!', verb, '('] ++ a.typeName.toList ++ ['='] ++
    h.shown (verb == 'w' && h.sharp) a ++ [')']
  match verb, a with
  | 'T', a => h.pad (h.cut a.typeName).toList
  | 'v', a => h.shown h.sharp a
  | 's', .text _ | 't', .flag _ => h.shown false a
  | 'q', .text s => h.pad (h.quote (h.cut s)).toList
  | 'x', .text s => h.pad (h.hex false s.toList)
  | 'X', .text s => h.pad (h.hex true s.toList)
  | _, _ => unsuited

end Shape

/-- The shape of what fills a hole.  A point without a number stands for the precision zero, and
    an argument says nothing. -/
def Hole.measured (h : Hole) : Shape :=
  { h.shape with
    width := match h.width with
      | .number n => n
      | _ => 0
    precision := match h.precision with
      | none | some (_, .argument) => none
      | some (_, .number n) => some n
      | some (_, .unsaid) => some 0 }

/-- Where the filling of a template stands. -/
structure Filling where
  args : Array Arg
  /-- The argument that comes next. -/
  next : Nat := 0
  /-- Whether an index was said anywhere. -/
  reordered : Bool := false
  /-- Whether the hole at hand says nothing impossible about its argument. -/
  sound : Bool := true

namespace Filling

/-- Goes to the argument that an index says. -/
def goTo (f : Filling) : Index → Filling
  | .unsaid => f
  | .malformed => { f with reordered := true, sound := false }
  | .number n =>
      if 1 ≤ n && n ≤ f.args.size then { f with reordered := true, next := n - 1 }
      else { f with reordered := true, sound := false }

/-- Holds a hole unsound if a condition is met. -/
def refuse (f : Filling) (condition : Bool) : Filling :=
  if condition then { f with sound := false } else f

/-- Passes over an argument, if there is one. -/
def pass (f : Filling) : Filling :=
  if f.next < f.args.size then { f with next := f.next + 1 } else f

/-- Takes the width of a hole.  No argument can say it, and none can have been named before. -/
def takeWidth (f : Filling) (h : Hole) : List Char × Filling :=
  let f := f.goTo h.first
  match h.width with
  | .argument => ("%!(BADWIDTH)".toList, f.pass)
  | .number _ => ([], f.refuse h.first.isNumber)
  | .unsaid => ([], f)

/-- Takes the precision of a hole, under the same rules. -/
def takePrecision (f : Filling) (h : Hole) : List Char × Filling :=
  match h.precision with
  | none => ([], f)
  | some (index, measure) =>
      let f := (f.refuse (h.first.isNumber && h.width != .argument)).goTo index
      match measure with
      | .argument => ("%!(BADPREC)".toList, f.pass)
      | _ => ([], f)

/-- Takes what a hole says before its verb. -/
def enter (f : Filling) (h : Hole) : List Char × Filling :=
  let (width, f) := { f with sound := true }.takeWidth h
  let (precision, f) := f.takePrecision h
  (width ++ precision, f.goTo h.last)

/-- The text of the arguments no hole asked for; there are none where an index was said. -/
def leftOver (f : Filling) : List Char :=
  let args := f.args.toList.drop f.next
  if f.reordered || args.isEmpty then []
  else
    let shown := args.map (fun a => a.typeName ++ "=" ++ a.plain)
    "%!(EXTRA ".toList ++ (", ".intercalate shown).toList ++ [')']

/-- Fills a hole at its verb. -/
def atVerb (f : Filling) (h : Hole) (verb : Char) : List Char × Filling :=
  if verb == '%' then (['%'], f)
  else if !f.sound then (['%', '!', verb] ++ "(BADINDEX)".toList, f)
  else match f.args[f.next]? with
    | none => (['%', '!', verb] ++ "(MISSING)".toList, f)
    | some a => (h.measured.fill verb a, { f with next := f.next + 1 })

/-- Fills the holes of a template. -/
def fillAll (f : Filling) : List Piece → List Char
  | [] => f.leftOver
  | .char c :: rest => c :: f.fillAll rest
  | .hole h verb :: rest =>
      let (before, f) := f.enter h
      let (filled, f) := f.atVerb h verb
      before ++ filled ++ f.fillAll rest
  | .cutOff h :: _ =>
      let (before, f) := f.enter h
      before ++ "%!(NOVERB)".toList ++ f.leftOver

end Filling

/-- A template with its holes filled. -/
def expand (template : String) (args : List Arg) : String :=
  let cs := template.toList
  String.ofList (({ args := args.toArray : Filling }).fillAll (pieces cs.length cs))

end Resumable.Text
