/-
  Resumable.Yaml.Comment — what stands between tokens.

  Blanks, line breaks and comments separate tokens.  A comment at the end of a line is read
  together with the token before it, and a comment draws in the comment lines that follow it: the
  white space up to the next comment is passed over whatever it is, so that a tab may indent a
  comment line where it may not indent anything else.  Both look ahead over white space for at
  most `lookahead` characters.
-/
import Resumable.Yaml.Cursor

namespace Resumable.Yaml

/-- How many characters are looked at in search of a comment. -/
def lookahead : Nat := 512

/-! ## §1. Looking for a comment. -/

/-- Looks for a comment behind blanks.  `window` is the text from its `p`-th character on. -/
def blanksBefore (text : List Char) : (p : Nat) → (window : List Char) → Cursor →
    Except SyntaxError (Bool × Cursor)
  | p, [], k => do
      if lookahead ≤ p then return (false, k) else return (false, ← k.need (p + 1) text)
  | p, c :: window, k => do
      if lookahead ≤ p then return (false, k)
      else
        let k ← k.need (p + 1) text
        if isBlank c then blanksBefore text (p + 1) window k else return (c == '#', k)

/-- Skips a comment behind blanks on the same line. -/
def lineComment (text : List Char) (k : Cursor) : Except SyntaxError (List Char × Cursor) := do
  let (found, k) ← blanksBefore text 0 text k
  if found then k.toLineEnd text else return (text, k)

/-- Looks for a comment line behind white space, and tells how many characters come before it.
    `window` is the text from its `p`-th character on.  A line break of its own kind (U+0085,
    U+2028, U+2029) ends the search, and so does the end of a flow collection. -/
def gapBefore (text : List Char) : (p : Nat) → (window : List Char) → Cursor →
    Except SyntaxError (Option Nat × Cursor)
  | p, [], k => do
      if lookahead ≤ p then return (none, k) else return (none, ← k.need (p + 1) text)
  | p, c :: window, k => do
      if lookahead ≤ p then return (none, k)
      else
        let k ← k.need (p + 1) text
        if isBlank c || c == '\n' || c == '\r' then gapBefore text (p + 1) window k
        else if isBreak c then
          if lookahead ≤ p + 1 then return (none, k) else return (none, ← k.need (p + 2) text)
        else return (if c == '#' then some p else none, k)

/-! ## §2. Going to the next token. -/

/-- What the text between tokens is read as. -/
inductive GapMode where
  /-- The start of a line, where a byte order mark may stand. -/
  | lineStart
  | blanks
  | comment
  /-- White space before the next comment line, so many characters of it. -/
  | between (left : Nat)
  deriving DecidableEq

/-- The characters between a comment that ended and the next comment line, if one follows. -/
def nextComment (text : List Char) (k : Cursor) : Except SyntaxError (Option Nat × Cursor) :=
  match text with
  | '\n' :: window => gapBefore text 1 window k
  | '\r' :: window => gapBefore text 1 window k
  | _ => do return (none, ← k.need 2 text)

/-- Reads on behind white space before a comment line. -/
def GapMode.passing (left : Nat) : GapMode := if left == 0 then .comment else .between left

/-- Whether a character is passed over before a token: a tab counts only where no key can
    start. -/
def isPassed (flow allowed : Bool) (c : Char) : Bool :=
  c == ' ' || (c == '\t' && (flow || !allowed))

/-- Whether a character is passed over here although it is no white space: at the start of a line
    one is, whichever it is, as long as the decoded characters start with a byte order mark. -/
def GapMode.passesAny (mode : GapMode) (k : Cursor) : Bool :=
  mode == .lineStart && k.mark.column == 0 && k.marked

/-- Moves over the line break of `width` characters at the front of the text.  Outside flow
    collections a new line allows a key, except for the line breaks between two comments. -/
def GapMode.pastBreak (mode : GapMode) (flow allowed : Bool) (width : Nat) (text : List Char)
    (k : Cursor) : Except SyntaxError (GapMode × Bool × Cursor) := do
  match mode with
  | .between left => return (.passing (left - width), allowed, ← k.pastBreak width text)
  | .comment =>
      match ← nextComment text k with
      | (some left, k) => return (.passing (left - width), allowed, ← k.pastBreak width text)
      | (none, k) => return (.lineStart, allowed || !flow, ← k.pastBreak width text)
  | _ => return (.lineStart, allowed || !flow, ← k.pastBreak width text)

/-- The mode behind a character that is part of a gap; `none` if a token starts with it. -/
def GapMode.past? (mode : GapMode) (flow allowed : Bool) (c : Char) : Option GapMode :=
  match mode with
  | .between left => some (.passing (left - 1))
  | .comment => some .comment
  | _ => if isPassed flow allowed c then some .blanks else if c == '#' then some .comment else none

/-- Skips blanks, comments and line breaks up to the next token.  The result tells whether a key
    may start there. -/
def toToken (flow : Bool) : GapMode → (allowed : Bool) → List Char → Cursor →
    Except SyntaxError (Bool × List Char × Cursor)
  | mode, allowed, [], k => do
      let k ← k.need 1 []
      if mode.passesAny k then return (allowed, [], ← k.past 1 [])
      else if mode == .comment then return (allowed, [], ← k.need 2 [])
      else return (allowed, [], k)
  | mode, allowed, '\r' :: '\n' :: cs, k => do
      let text := '\r' :: '\n' :: cs
      let k ← k.need 1 text
      if mode.passesAny k then toToken flow .blanks allowed ('\n' :: cs) k.step
      else
        let (mode, allowed, k) ← mode.pastBreak flow allowed 2 text k
        toToken flow mode allowed cs k
  | mode, allowed, c :: cs, k => do
      let k ← k.need 1 (c :: cs)
      if mode.passesAny k then toToken flow .blanks allowed cs k.step
      else if isBreak c then
        let (mode, allowed, k) ← mode.pastBreak flow allowed 1 (c :: cs) k
        toToken flow mode allowed cs k
      else
        match mode.past? flow allowed c with
        | some mode => toToken flow mode allowed cs k.step
        | none => return (allowed, c :: cs, k)

end Resumable.Yaml
