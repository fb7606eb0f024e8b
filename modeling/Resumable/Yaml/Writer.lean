/-
  Resumable.Yaml.Writer — documents in block style.

  Mappings and lists are written in block style, an empty list as `[]`.  A text is written plain
  if it then reads as a string and holds no indicator; in quotes otherwise; and line by line if it
  has line breaks and no character that needs an escape.

  A block of lines starts with its first line's text even if that line is empty, so a line break
  at the start of a text is not kept.
-/
import Resumable.Text.Bytes
import Resumable.Yaml.Cursor
import Resumable.Yaml.Tag

namespace Resumable.Yaml

/-! ## §1. What a text looks like. -/

/-- Whether a character can be written as it is. -/
def isPlainCharacter (c : Char) : Bool :=
  let n := c.toNat
  n == 0x0A || (0x20 ≤ n && n ≤ 0x7E) || (0xA0 ≤ n && n ≤ 0xD7FF) ||
    (0xE000 ≤ n && n ≤ 0xFFFD && n != 0xFEFF)

/-- Whether two neighbouring characters satisfy a relation anywhere in a text. -/
def anyPair (p : Char → Char → Bool) : List Char → Bool
  | a :: b :: rest => p a b || anyPair p (b :: rest)
  | _ => false

/-- Whether the text is a number to the base sixty, such as `1:20`. -/
def isSexagesimal (cs : List Char) : Bool :=
  let body := match cs with
    | '+' :: rest => rest
    | '-' :: rest => rest
    | _ => cs
  let whole := body.takeWhile (fun c => c.isDigit || c == '_')
  let rest := body.drop whole.length
  let isPart (p : List Char) : Bool := match p with
    | [a] => a.isDigit
    | [a, b] => '0' ≤ a && a ≤ '5' && b.isDigit
    | _ => false
  let upToPoint := rest.takeWhile (· != '.')
  let fraction := rest.drop upToPoint.length
  whole.head?.any Char.isDigit &&
    (match (String.ofList upToPoint).splitOn ":" with
    | "" :: parts => !parts.isEmpty && parts.all (fun p => isPart p.toList)
    | _ => false) &&
    (fraction.drop 1).all (fun c => c.isDigit || c == '_')

/-- Whether a text, written plain, reads as a string. -/
def readsAsString (s : String) : Bool :=
  Tag.ofPlain s == Tag.str && !isSexagesimal s.toList && (Tag.formerBoolean? s).isNone

/-- Whether a text holds an indicator where it would mean something in block style. -/
def hasIndicator (cs : List Char) : Bool :=
  let gap (c : Char) : Bool := isBlank c || isBreak c
  let atStart : Bool := match cs with
    | [] => false
    | c :: rest =>
        "#,[]\x7b\x7d&*!|>'\"%@`".toList.contains c ||
          ("?:-".toList.contains c && rest.head?.all gap)
  "---".toList.isPrefixOf cs || "...".toList.isPrefixOf cs || atStart ||
    cs.getLast? == some ':' || anyPair (fun a b => a == ':' && gap b) cs ||
    anyPair (fun a b => gap a && b == '#') cs

/-- How a text is written. -/
inductive TextStyle where
  | plain | single | double | literal
  deriving DecidableEq, Repr

/-- The style a text is written in as a value in block style. -/
def styleOf (s : String) : TextStyle :=
  let cs := s.toList
  let special := cs.any (fun c => c != '\t' && !isPlainCharacter c)
  let spaceBreak := anyPair (fun a b => a == ' ' && isBreak b) cs
  let breakSpace := anyPair (fun a b => isBreak a && b == ' ') cs
  let breaks := cs.any isBreak
  let edge (c : Option Char) : Bool := c.any (fun c => c == ' ' || isBreak c)
  let literalAllowed := !(cs.getLast? == some ' ' || spaceBreak || special)
  let singleAllowed := !(breakSpace || spaceBreak || special || cs.contains '\t')
  let plainAllowed := singleAllowed && !breaks && !edge cs.head? && !edge cs.getLast? &&
    !hasIndicator cs
  if cs.contains '\n' then (if literalAllowed then .literal else .double)
  else if readsAsString s then
    if plainAllowed then .plain else if singleAllowed then .single else .double
  else .double

/-! ## §2. Texts. -/

/-- How a character is written as an escape. -/
def escapeText (c : Char) : List Char :=
  let n := c.toNat
  let upper (cs : List Char) := cs.map Char.toUpper
  match ([(0x00, '0'), (0x07, 'a'), (0x08, 'b'), (0x09, 't'), (0x0A, 'n'), (0x0B, 'v'),
      (0x0C, 'f'), (0x0D, 'r'), (0x1B, 'e'), (0x22, '"'), (0x5C, '\\'), (0x85, 'N'), (0xA0, '_'),
      (0x2028, 'L'), (0x2029, 'P')] : List (Nat × Char)).lookup n with
  | some letter => ['\\', letter]
  | none =>
      if n ≤ 0xFF then ['\\', 'x'] ++ upper (Text.hexPadded 2 n)
      else if n ≤ 0xFFFF then ['\\', 'u'] ++ upper (Text.hexPadded 4 n)
      else ['\\', 'U'] ++ upper (Text.hexPadded 8 n)

/-- The inside of double quotes.  Behind a byte order mark at its start, every character of a text
    is escaped. -/
def doubleText (cs : List Char) : List Char :=
  let marked := cs.head?.any (fun c => c.toNat == 0xFEFF)
  cs.flatMap (fun c =>
    if !marked && isPlainCharacter c && !isBreak c && c != '"' && c != '\\' then [c]
    else escapeText c)

/-- The inside of single quotes.  A character after a line break is indented. -/
def singleText (indent : Nat) : (afterBreak : Bool) → List Char → List Char
  | _, [] => []
  | afterBreak, c :: rest =>
      if isBreak c then c :: singleText indent true rest
      else
        (if afterBreak then List.replicate indent ' ' else []) ++
          (if c == '\'' then ['\'', '\''] else [c]) ++ singleText indent false rest

/-- The lines of a block, each indented. -/
def literalText (indent : Nat) : (afterBreak : Bool) → List Char → List Char
  | _, [] => []
  | afterBreak, c :: rest =>
      if isBreak c then c :: literalText indent true rest
      else
        (if afterBreak then List.replicate indent ' ' else []) ++ [c] ++
          literalText indent false rest

/-- The indicators of a block of lines: a width if the text starts with white space, and what
    becomes of the line breaks at its end. -/
def literalHead (cs : List Char) : List Char :=
  let width := if cs.head?.any (fun c => c == ' ' || isBreak c) then ['4'] else []
  let chomp := match cs.reverse with
    | [] => ['-']
    | c :: rest =>
        if !isBreak c then ['-']
        else match rest with
          | [] => ['+']
          | d :: _ => if isBreak d then ['+'] else []
  '|' :: width ++ chomp

/-- Text that has been written, and whether it ends at the start of a line. -/
structure Written where
  text : List Char
  atLineStart : Bool := false

namespace Written

/-- A text as a value in block style; lines after the first are indented. -/
def ofText (indent : Nat) (s : String) : Written :=
  let cs := s.toList
  match styleOf s with
  | .plain => { text := cs }
  | .single => { text := '\'' :: singleText indent false cs ++ ['\''] }
  | .double => { text := '"' :: doubleText cs ++ ['"'] }
  | .literal =>
      let lines := literalText indent true cs
      let start := if cs.head?.any isBreak then [] else ['\n']
      { text := literalHead cs ++ start ++ lines, atLineStart := cs.getLast?.any isBreak }

/-- Something written in front. -/
def after (text : List Char) (w : Written) : Written := { w with text := text ++ w.text }

end Written

/-- The start of a line at a depth, where the one before may have been ended already. -/
def lineStart (atLineStart : Bool) (indent : Nat) : List Char :=
  (if atLineStart then [] else ['\n']) ++ List.replicate indent ' '

/-! ## §3. Documents. -/

/-- A value to be written. -/
inductive Data where
  | text (value : String)
  | flag (value : Bool)
  | list (items : List Data)
  | record (fields : List (String × Data))
  deriving Repr

/-- The depth of what stands below a mapping at a depth. -/
def below (indent : Nat) : Nat := 4 * ((indent + 4) / 4)

namespace Data

/-- Whether a value starts on a line of its own behind a key. -/
def isBlock : Data → Bool
  | list [] | record [] => false
  | list _ | record _ => true
  | _ => false

/-- A key at a depth and what separates it from its value. -/
def fieldStart (indent : Nat) (key : String) (v : Data) : List Char :=
  key.toList ++
    if v.isBlock then ':' :: '\n' :: List.replicate (below indent) ' ' else [':', ' ']

mutual

/-- A value.  A list or mapping is at depth `indent`, and so are the later lines of a text. -/
def write (indent : Nat) : Data → Written
  | text s => .ofText indent s
  | flag true => { text := "true".toList }
  | flag false => { text := "false".toList }
  | list [] => { text := ['[', ']'] }
  | list (d :: rest) =>
      let first := write (indent + 2) d
      .after ('-' :: ' ' :: first.text) (writeItems indent rest first.atLineStart)
  | record [] => { text := ['{', '}'] }
  | record ((k, v) :: rest) =>
      let first := write (below indent) v
      .after (fieldStart indent k v ++ first.text) (writeFields indent rest first.atLineStart)

/-- The items behind something written. -/
def writeItems (indent : Nat) : List Data → (atLineStart : Bool) → Written
  | [], atLineStart => { text := [], atLineStart }
  | d :: rest, atLineStart =>
      let first := write (indent + 2) d
      .after (lineStart atLineStart indent ++ '-' :: ' ' :: first.text)
        (writeItems indent rest first.atLineStart)

/-- The fields behind something written. -/
def writeFields (indent : Nat) : List (String × Data) → (atLineStart : Bool) → Written
  | [], atLineStart => { text := [], atLineStart }
  | (k, v) :: rest, atLineStart =>
      let first := write (below indent) v
      .after (lineStart atLineStart indent ++ fieldStart indent k v ++ first.text)
        (writeFields indent rest first.atLineStart)

end

/-- A value as a document. -/
def toText (d : Data) : String :=
  let w := d.write 0
  String.ofList (w.text ++ lineStart w.atLineStart 0)

end Data

end Resumable.Yaml
