/-
  Resumable.Pattern.Parser — patterns from text.

  The notation is the usual one without back-references and look-around: literals, `.`, classes,
  groups, `|`, the repetitions `*`, `+`, `?` and `{n,m}`, anchors, flags such as `(?i)`, and
  escapes.  A counted repetition goes up to 1000, also in total where counts are nested, a
  repetition cannot be repeated directly, and a pattern that is too deep or too large is refused.

  The reader goes through the text once.  It keeps the parts of the group it is in and, for every
  open group, the parts read before it.
-/
import Resumable.Pattern.Basic
import Resumable.Text.Bytes
import Resumable.Text.Script

namespace Resumable.Pattern

/-! ## §1. Named sets. -/

/-- The ASCII classes by name. -/
def asciiClasses : List (String × List (Nat × Nat)) :=
  [("alnum", [(0x30, 0x39), (0x41, 0x5A), (0x61, 0x7A)]),
   ("alpha", [(0x41, 0x5A), (0x61, 0x7A)]),
   ("ascii", [(0, 0x7F)]),
   ("blank", [(9, 9), (0x20, 0x20)]),
   ("cntrl", [(0, 0x1F), (0x7F, 0x7F)]),
   ("digit", [(0x30, 0x39)]),
   ("graph", [(0x21, 0x7E)]),
   ("lower", [(0x61, 0x7A)]),
   ("print", [(0x20, 0x7E)]),
   ("punct", [(0x21, 0x2F), (0x3A, 0x40), (0x5B, 0x60), (0x7B, 0x7E)]),
   ("space", [(9, 0xD), (0x20, 0x20)]),
   ("upper", [(0x41, 0x5A)]),
   ("word", [(0x30, 0x39), (0x41, 0x5A), (0x5F, 0x5F), (0x61, 0x7A)]),
   ("xdigit", [(0x30, 0x39), (0x41, 0x46), (0x61, 0x66)])]

/-- The classes that an escaped letter stands for. -/
def escapedClass? : Char → Option (List (Nat × Nat))
  | 'd' => some [(0x30, 0x39)]
  | 's' => some [(9, 0xA), (0xC, 0xD), (0x20, 0x20)]
  | 'w' => some [(0x30, 0x39), (0x41, 0x5A), (0x5F, 0x5F), (0x61, 0x7A)]
  | _ => none

/-! ## §2. State. -/

/-- Switches that change how the rest of a group is read. -/
structure Flags where
  /-- Letters match in either case. -/
  fold : Bool := false
  /-- `^` and `$` match at line ends. -/
  lines : Bool := false
  /-- `.` matches a line break. -/
  dotAll : Bool := false
  deriving Repr

/-- The parts of a group: its finished alternatives and the last one's parts, newest first. -/
structure Group where
  alternatives : List Pattern := []
  parts : List Pattern := []
  /-- The switches that held before the group. -/
  outside : Flags := {}
  /-- Whether the group is counted. -/
  counted : Bool := false

/-- The last alternative as one pattern. -/
def Group.tail (g : Group) : Pattern :=
  match g.parts with
  | [] => empty
  | last :: before => before.foldl (fun p q => seq q p) last

/-- A group as one pattern. -/
def Group.pattern (g : Group) : Pattern :=
  let inside := g.alternatives.foldl (fun p q => alt q p) g.tail
  if g.counted then group inside else inside

/-- Where the reader stands. -/
structure Reader where
  group : Group := {}
  enclosing : List Group := []
  flags : Flags := {}
  /-- Whether the part read last was a repetition. -/
  repeated : Bool := false

/-- A step of the reader; `none` stands for a malformed pattern. -/
abbrev Read := Option (Reader × List Char)

namespace Reader

/-- Adds a part. -/
def push (r : Reader) (p : Pattern) : Reader :=
  { r with group := { r.group with parts := p :: r.group.parts }, repeated := false }

/-- A set under the switches that hold. -/
def cased (r : Reader) (s : CharSet) : CharSet := if r.flags.fold then .folded s else s

/-- Adds a literal. -/
def literal (r : Reader) (code : Nat) : Reader := r.push (.one (r.cased (.only code)))

/-- Opens a group; the switches inside it are given. -/
def openGroup (r : Reader) (inside : Flags) (counted : Bool) : Reader :=
  { group := { outside := r.flags, counted }, enclosing := r.group :: r.enclosing, flags := inside }

/-- Ends an alternative. -/
def bar (r : Reader) : Reader :=
  { r with group := { r.group with alternatives := r.group.tail :: r.group.alternatives
                                   parts := [] }
           repeated := false }

/-- Closes a group. -/
def closeGroup (r : Reader) : Option Reader :=
  match r.enclosing with
  | [] => none
  | g :: rest =>
      some ({ group := g, enclosing := rest, flags := r.group.outside : Reader }.push
        r.group.pattern)

/-- Repeats the last part. -/
def repeatLast (r : Reader) (f : Pattern → Option Pattern) (rest : List Char) : Read :=
  let rest := match rest with
    | '?' :: more => more
    | _ => rest
  if r.repeated then none
  else match r.group.parts with
    | [] => none
    | p :: parts => do
        let p ← f p
        return ({ r with group := { r.group with parts := p :: parts }, repeated := true }, rest)

end Reader

/-! ## §3. Counts and escapes. -/

/-- A number without leading zeros; one of nine digits or more reads as too large. -/
def count? (cs : List Char) : Option (Nat × List Char) :=
  let digits := cs.takeWhile Char.isDigit
  match digits with
  | [] => none
  | '0' :: _ :: _ => none
  | _ =>
      let value := digits.foldl (fun n d => 10 * n + (d.toNat - 0x30)) 0
      some (if digits.length ≥ 9 then 1000000000 else value, cs.drop digits.length)

/-- The bounds of a counted repetition, behind its opening brace. -/
def bounds? (cs : List Char) : Option (Nat × Option Nat × List Char) := do
  let (least, rest) ← count? cs
  match rest with
  | '}' :: rest => return (least, some least, rest)
  | ',' :: '}' :: rest => return (least, none, rest)
  | ',' :: rest =>
      match ← count? rest with
      | (most, '}' :: rest) => return (least, some most, rest)
      | _ => none
  | _ => none

/-- A repetition; its count cannot be too large together with the counts inside it. -/
def counted (least : Nat) (most : Option Nat) (p : Pattern) : Option Pattern :=
  let result := times p least most
  if (least ≥ 2 || most.any (· ≥ 2)) && !result.repeatsWithin 1000 then none else some result

/-- Whether a character is an octal digit. -/
def isOctal (c : Char) : Bool := '0' ≤ c && c ≤ '7'

/-- The hexadecimal digits up to a closing brace. -/
def bracedHex? : List Char → (value count : Nat) → Option (Nat × List Char)
  | [], _, _ => none
  | c :: rest, value, count =>
      if c == '}' then (if count = 0 then none else some (value, rest))
      else do
        let d ← Text.hexValue? c
        let value := 16 * value + d
        if value > 0x10FFFF then none else bracedHex? rest value (count + 1)

/-- The code point an escape stands for, behind its backslash. -/
def escape? : List Char → Option (Nat × List Char)
  | [] => none
  | c :: rest =>
      if isOctal c then
        if c != '0' && !rest.head?.any isOctal then none
        else
          let digits := c :: (rest.take 2).takeWhile isOctal
          some (digits.foldl (fun n d => 8 * n + (d.toNat - 0x30)) 0, rest.drop (digits.length - 1))
      else match c, rest with
        | 'x', '{' :: rest => bracedHex? rest 0 0
        | 'x', a :: b :: rest => do
            return (16 * (← Text.hexValue? a) + (← Text.hexValue? b), rest)
        | 'a', _ => some (7, rest)
        | 'f', _ => some (0xC, rest)
        | 'n', _ => some (0xA, rest)
        | 'r', _ => some (0xD, rest)
        | 't', _ => some (9, rest)
        | 'v', _ => some (0xB, rest)
        | _, _ => if c.toNat < 0x80 && !c.isAlphanum then some (c.toNat, rest) else none

/-- A class written as an escaped letter; an upper-case one stands for the complement. -/
def letterClass? (r : Reader) (c : Char) : Option CharSet :=
  match escapedClass? c with
  | some rs => some (r.cased (.ranges rs))
  | none =>
      if c.isUpper then
        (escapedClass? c.toLower).map (fun rs => .compl (r.cased (.ranges rs)))
      else none

/-! ## §4. Classes. -/

/-- The ranges of a category or a script. -/
def propertyRanges? (name : String) : Option (List (Nat × Nat)) :=
  if name == "Any" then some [(0, 0x10FFFF)]
  else (Text.categoryRanges? name).or (Text.scriptRanges? name)

/-- The name of a category or a script, one letter or in braces, and what follows it. -/
def propertyName? : List Char → Option (List Char × List Char)
  | '{' :: rest =>
      let name := rest.takeWhile (· != '}')
      if name.length < rest.length then some (name, rest.drop (name.length + 1)) else none
  | c :: rest => some ([c], rest)
  | [] => none

/-- A class such as `\p{Greek}`, behind its letter; `negated` says whether it is the complement.
    A caret in front of the name negates once more. -/
def property? (r : Reader) (negated : Bool) (cs : List Char) : Option (CharSet × List Char) := do
  let (name, rest) ← propertyName? cs
  let (negated, name) := match name with
    | '^' :: name => (!negated, name)
    | _ => (negated, name)
  let s := r.cased (.ranges (← propertyRanges? (String.ofList name)))
  return (if negated then .compl s else s, rest)

/-- A text up to the first of a given pair of characters, and what follows the pair. -/
def splitAtPair (a b : Char) : List Char → Option (List Char × List Char)
  | [] => none
  | [_] => none
  | c :: d :: rest =>
      if c == a && d == b then some ([], rest)
      else (splitAtPair a b (d :: rest)).map (fun (before, after) => (c :: before, after))

/-- A named class such as `[:alpha:]`, behind its opening bracket and colon.  The answer is
    `some none` if the name is not closed. -/
def namedClass? (r : Reader) (cs : List Char) : Option (Option (CharSet × List Char)) :=
  match splitAtPair ':' ']' cs with
  | none => some none
  | some (name, rest) =>
      let (negated, name) := match name with
        | '^' :: name => (true, name)
        | _ => (false, name)
      match asciiClasses.lookup (String.ofList name) with
      | none => none
      | some rs =>
          let s := r.cased (.ranges rs)
          some (some (if negated then .compl s else s, rest))

/-- One character of a class. -/
def classChar? : List Char → Option (Nat × List Char)
  | [] => none
  | '\\' :: rest => escape? rest
  | c :: rest => some (c.toNat, rest)

/-- A single character or a range of a class. -/
def classRange? (r : Reader) (cs : List Char) : Option (CharSet × List Char) := do
  let (low, rest) ← classChar? cs
  match rest with
  | '-' :: c :: more =>
      if c == ']' then return (r.cased (.only low), rest)
      else
        let (high, rest) ← classChar? (c :: more)
        if high < low then none else return (r.cased (.range low high), rest)
  | _ => return (r.cased (.only low), rest)

/-- One item of a class. -/
def classItem? (r : Reader) (cs : List Char) : Option (CharSet × List Char) :=
  match cs with
  | '[' :: ':' :: c :: rest =>
      match namedClass? r (c :: rest) with
      | none => none
      | some none => classRange? r cs
      | some (some found) => some found
  | '\\' :: c :: rest =>
      if c == 'p' || c == 'P' then property? r (c == 'P') rest
      else match letterClass? r c with
        | some s => some (s, rest)
        | none => classRange? r cs
  | _ => classRange? r cs

/-- The items of a class up to its closing bracket, which does not count in first place. -/
def classItems? (r : Reader) : (fuel : Nat) → (first : Bool) → List Char → CharSet →
    Option (CharSet × List Char)
  | 0, _, _, _ => none
  | fuel + 1, first, cs, s =>
      match cs with
      | [] => none
      | c :: rest =>
          if c == ']' && !first then some (s, rest)
          else do
            let (item, rest) ← classItem? r cs
            classItems? r fuel false rest (.union item s)

/-- A class, behind its opening bracket. -/
def class? (r : Reader) (cs : List Char) : Option (CharSet × List Char) :=
  match cs with
  | '^' :: rest => do
      let (s, rest) ← classItems? r (rest.length + 1) true rest .none
      return (.compl s, rest)
  | _ => classItems? r (cs.length + 1) true cs .none

/-! ## §5. Groups. -/

/-- Whether a character may stand in the name of a group. -/
def isGroupName (c : Char) : Bool := Anchor.isWord c

/-- A named group, at its name. -/
def namedGroup? (r : Reader) (cs : List Char) : Read :=
  let name := cs.takeWhile (· != '>')
  match cs.drop name.length with
  | _ :: rest =>
      if name.isEmpty || !name.all isGroupName then none else some (r.openGroup r.flags true, rest)
  | [] => none

/-- Sets or clears a switch; `none` if there is no such switch.  The switch that makes
    repetitions reluctant has no influence on whether a text matches. -/
def Flags.set? (f : Flags) (value : Bool) : Char → Option Flags
  | 'i' => some { f with fold := value }
  | 'm' => some { f with lines := value }
  | 's' => some { f with dotAll := value }
  | 'U' => some f
  | _ => none

/-- Switches, up to the colon or parenthesis that ends them.  `value` is what a switch is set to
    and `seen` whether one was set since the minus sign. -/
def switches? (r : Reader) : List Char → Flags → (value seen : Bool) → Read
  | [], _, _, _ => none
  | c :: rest, f, value, seen =>
      if c == '-' then (if value then switches? r rest f false false else none)
      else if c == ':' then
        if !value && !seen then none else some (r.openGroup f false, rest)
      else if c == ')' then
        if !value && !seen then none else some ({ r with flags := f, repeated := false }, rest)
      else do
        let f ← f.set? value c
        switches? r rest f value true

/-- A group that starts with a question mark, behind it. -/
def specialGroup? (r : Reader) (cs : List Char) : Read :=
  match cs with
  | 'P' :: '<' :: c :: rest => namedGroup? r (c :: rest)
  | '<' :: c :: rest => namedGroup? r (c :: rest)
  | _ => switches? r cs r.flags true false

/-! ## §6. The reader. -/

/-- An escape outside a class, behind its backslash. -/
def escaped? (r : Reader) (cs : List Char) : Read :=
  match cs with
  | 'A' :: rest => some (r.push (.anchor .textStart), rest)
  | 'z' :: rest => some (r.push (.anchor .textEnd), rest)
  | 'b' :: rest => some (r.push (.anchor .wordEdge), rest)
  | 'B' :: rest => some (r.push (.anchor .noWordEdge), rest)
  | 'Q' :: rest =>
      let (quoted, rest) := (splitAtPair '\\' 'E' rest).getD (rest, [])
      some ({ quoted.foldl (fun r c => r.literal c.toNat) r with repeated := false }, rest)
  | c :: rest =>
      if c == 'p' || c == 'P' then
        (property? r (c == 'P') rest).map (fun (s, rest) => (r.push (.one s), rest))
      else match letterClass? r c with
      | some s => some (r.push (.one s), rest)
      | none => (escape? cs).map (fun (code, rest) => (r.literal code, rest))
  | [] => none

/-- Reads one part. -/
def part? (r : Reader) (c : Char) (rest : List Char) : Read :=
  match c with
  | '(' =>
      match rest with
      | '?' :: more => specialGroup? r more
      | _ => some (r.openGroup r.flags true, rest)
  | '|' => some (r.bar, rest)
  | ')' => r.closeGroup.map (fun r => (r, rest))
  | '^' => some (r.push (.anchor (if r.flags.lines then .lineStart else .textStart)), rest)
  | '$' => some (r.push (.anchor (if r.flags.lines then .lineEnd else .textEnd)), rest)
  | '.' => some (r.push (.one (if r.flags.dotAll then .compl .none else .compl (.only 0xA))), rest)
  | '[' => (class? r rest).map (fun (s, rest) => (r.push (.one s), rest))
  | '*' => r.repeatLast (counted 0 none) rest
  | '+' => r.repeatLast (counted 1 none) rest
  | '?' => r.repeatLast (counted 0 (some 1)) rest
  | '{' =>
      match bounds? rest with
      | none => some (r.literal c.toNat, rest)
      | some (least, most, rest) =>
          if least > 1000 || most.any (fun m => m > 1000 || least > m) then none
          else r.repeatLast (counted least most) rest
  | '\\' => escaped? r rest
  | _ => some (r.literal c.toNat, rest)

/-- Reads parts until the text ends. -/
def parts? : (fuel : Nat) → Reader → List Char → Option Reader
  | _, r, [] => some r
  | 0, _, _ :: _ => none
  | fuel + 1, r, c :: rest => do
      let (r, rest) ← part? r c rest
      parts? fuel r rest

/-- The pattern a text stands for; `none` if it is malformed. -/
def parse? (s : String) : Option Pattern := do
  let cs := s.toList
  let r ← parts? cs.length {} cs
  if r.enclosing.isEmpty && r.group.pattern.isUsable then some r.group.pattern else none

end Resumable.Pattern
