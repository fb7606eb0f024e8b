/-
  Resumable.Yaml.Cursor — a place in a document and what is known of the characters behind it.

  A document is decoded block by block, and a block only when a reader asks for a character in
  it.  A fault in a block therefore shows only to a reader that looks so far, and how far each
  reader looks is part of what a document means.  A `Cursor` keeps the account: the place, how many
  characters have been decoded but not read, and how large the blocks are that follow.  The text
  itself is a list that is passed along, and `Cursor.need` tells how much of it a reader looks at.
-/
namespace Resumable.Yaml

/-! ## §1. Places and faults. -/

/-- A place in a document: the number of characters before it, its line and its column. -/
structure Mark where
  index : Nat := 0
  line : Nat := 0
  column : Nat := 0
  deriving DecidableEq, Repr, Inhabited

namespace Mark

/-- The place one character further on the line. -/
def next (m : Mark) : Mark := { m with index := m.index + 1, column := m.column + 1 }

/-- The start of the next line, after a line break of `width` characters. -/
def newline (m : Mark) (width : Nat) : Mark :=
  { index := m.index + width, line := m.line + 1, column := 0 }

end Mark

/-- Why a document cannot be read. -/
inductive SyntaxError where
  /-- A block of bytes is not text. -/
  | unreadable
  /-- A character that starts no token. -/
  | unexpectedCharacter (place : Mark)
  /-- A token that cannot stand where it stands. -/
  | unexpectedToken (place : Mark)
  /-- A tab where only spaces may indent. -/
  | tabIndent (place : Mark)
  /-- A quoted scalar without its closing quote. -/
  | unclosedQuote (place : Mark)
  /-- A malformed escape in a double-quoted scalar. -/
  | badEscape (place : Mark)
  /-- A malformed header of a block scalar. -/
  | badBlockHeader (place : Mark)
  /-- A line that has to be a mapping key but has no colon. -/
  | missingColon (place : Mark)
  /-- A block entry, key or value in the middle of a line. -/
  | misplacedIndicator (place : Mark)
  /-- A malformed anchor, alias or tag. -/
  | badProperty (place : Mark)
  /-- A malformed or unsupported directive. -/
  | badDirective (place : Mark)
  /-- An alias of an anchor that is not defined. -/
  | unknownAnchor (name : String)
  /-- Nesting beyond what is supported. -/
  | tooDeep
  deriving DecidableEq, Repr

/-! ## §2. Characters. -/

/-- Space or tab. -/
def isBlank (c : Char) : Bool := c == ' ' || c == '\t'

/-- A character that ends a line. -/
def isBreak (c : Char) : Bool :=
  c == '\n' || c == '\r' || c.toNat == 0x85 || c.toNat == 0x2028 || c.toNat == 0x2029

/-- What a line break contributes to a text: the two separators stand for themselves, the others
    for a line feed. -/
def breakText (c : Char) : Char :=
  if c.toNat == 0x2028 || c.toNat == 0x2029 then c else '\n'

/-- Whether the text is at its end or at white space. -/
def atGap : List Char → Bool
  | [] => true
  | c :: _ => isBlank c || isBreak c

/-- Whether a document marker of three equal characters stands here. -/
def isMarker (c : Char) : List Char → Bool
  | a :: b :: d :: rest => a == c && b == c && d == c && atGap rest
  | _ => false

/-- Whether one of the two document markers stands here. -/
def isDocumentMarker (m : Mark) (cs : List Char) : Bool :=
  m.column == 0 && (isMarker '-' cs || isMarker '.' cs)

/-! ## §3. Cursors. -/

/-- A place in a document and what is known of the characters behind it. -/
structure Cursor where
  mark : Mark := {}
  /-- How many characters have been decoded but not read.  The end of the text counts as well,
      once for every time it was looked for. -/
  ready : Nat := 0
  /-- The sizes in characters of the blocks that have not been decoded. -/
  blocks : List Nat := []
  /-- Whether a block that is not text follows them. -/
  broken : Bool := false
  /-- Whether the decoded characters start with a byte order mark. -/
  marked : Bool := false
  deriving DecidableEq, Repr, Inhabited

namespace Cursor

/-- Decodes blocks until `n` characters are ready or no block is left. -/
def load (n : Nat) : (ready : Nat) → (blocks : List Nat) → Nat × List Nat
  | ready, [] => (ready, [])
  | ready, b :: blocks => if n ≤ ready then (ready, b :: blocks) else load n (ready + b) blocks

/-- Looks at the next `n` characters of the text behind the cursor, decoding blocks as needed.
    The characters that were read before are let go of then. -/
def need (k : Cursor) (n : Nat) (text : List Char) : Except SyntaxError Cursor :=
  if n ≤ k.ready then .ok k
  else
    let (ready, blocks) := load n k.ready k.blocks
    let marked := text.head?.any (fun c => c.toNat == 0xFEFF)
    if n ≤ ready then .ok { k with ready, blocks, marked }
    else if k.broken then .error .unreadable
    else .ok { k with ready := ready + 1, blocks, marked }

/-- Moves over a character of the line. -/
def step (k : Cursor) : Cursor := { k with mark := k.mark.next, ready := k.ready - 1 }

/-- Moves over a character of the line and looks at `n` characters of the rest. -/
def past (k : Cursor) (n : Nat) (rest : List Char) : Except SyntaxError Cursor :=
  k.step.need n rest

/-- Moves over the line break of `width` characters at the front of the text, and looks at one
    character behind it.  Two are looked at first, since a break may have two. -/
def pastBreak (k : Cursor) (width : Nat) (text : List Char) : Except SyntaxError Cursor := do
  let k ← k.need 2 text
  let k := { k with mark := k.mark.newline width, ready := k.ready - width }
  k.need 1 (text.drop width)

/-- Moves over `count` characters of the line that have been looked at. -/
def jump (k : Cursor) (count : Nat) : Cursor :=
  { k with
    mark := { k.mark with index := k.mark.index + count, column := k.mark.column + count }
    ready := k.ready - count }

/-- Reads characters of a class as long as they last: those characters, the rest, and the place
    of the rest.  `read` holds what was read before, latest first. -/
def readWhile (p : Char → Bool) : (text : List Char) → Cursor → (read : List Char) →
    Except SyntaxError (List Char × List Char × Cursor)
  | [], k, read => do return (read.reverse, [], ← k.need 1 [])
  | c :: cs, k, read => do
      let k ← k.need 1 (c :: cs)
      if p c then readWhile p cs k.step (c :: read) else return (read.reverse, c :: cs, k)

/-- Skips characters of a class as long as they last. -/
def skipWhile (p : Char → Bool) (text : List Char) (k : Cursor) :
    Except SyntaxError (List Char × Cursor) := do
  let (_, rest, k) ← k.readWhile p text []
  return (rest, k)

/-- Goes to the end of the line. -/
def toLineEnd (text : List Char) (k : Cursor) : Except SyntaxError (List Char × Cursor) :=
  k.skipWhile (fun c => !isBreak c) text

/-- Moves over the line break at the front of the text, if there is one. -/
def pastLineEnd (text : List Char) (k : Cursor) : Except SyntaxError (List Char × Cursor) := do
  match text with
  | [] => return ([], k)
  | '\r' :: '\n' :: rest => return (rest, ← k.pastBreak 2 text)
  | _ :: rest => return (rest, ← k.pastBreak 1 text)

end Cursor

end Resumable.Yaml
