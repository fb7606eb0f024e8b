/-
  Resumable.Yaml.Scalar — the text of plain, quoted and block scalars.

  Each reader walks the characters once.  White space between the words of a scalar is held back
  until the next word shows that it belongs to the scalar; then a single line break becomes a
  space and further ones stay (`Gap.text`).  A reader looks two characters ahead inside a word and
  four where a word starts, since a document marker may stand there.
-/
import Resumable.Text.Bytes
import Resumable.Yaml.Cursor

namespace Resumable.Yaml

/-- How a scalar was written. -/
inductive ScalarStyle where
  | plain
  | singleQuoted
  | doubleQuoted
  | literal
  | folded
  deriving DecidableEq, Repr, Inhabited

/-- A scalar that was read, and where its reader stopped. -/
structure Scanned where
  value : List Char
  rest : List Char
  cursor : Cursor
  /-- Whether the reader went past the end of the scalar's last line. -/
  brokeLine : Bool := false

/-! ## §1. White space between words. -/

/-- White space that has been read but not yet used. -/
structure Gap where
  /-- Blanks on the line of the last word, latest first. -/
  blanks : List Char := []
  /-- Whether a line break was read. -/
  broken : Bool := false
  /-- The first line break; none if it was escaped. -/
  first : Option Char := none
  /-- The further line breaks, latest first. -/
  others : List Char := []

namespace Gap

/-- Whether no white space has been read. -/
def isEmpty (g : Gap) : Bool := g.blanks.isEmpty && !g.broken

/-- Adds a blank. -/
def blank (g : Gap) (c : Char) : Gap :=
  if g.broken then g else { g with blanks := c :: g.blanks }

/-- Adds a line break. -/
def lineBreak (g : Gap) (c : Char) : Gap :=
  if g.broken then { g with others := breakText c :: g.others }
  else { blanks := [], broken := true, first := some (breakText c), others := [] }

/-- What the white space contributes, latest character first: a lone line feed is a space, and a
    line feed before other breaks disappears. -/
def text (g : Gap) : List Char :=
  if g.broken then
    match g.first with
    | some '\n' => if g.others.isEmpty then [' '] else g.others
    | some c => g.others ++ [c]
    | none => g.others
  else g.blanks

end Gap

/-- Looks at what is needed to tell whether a word or a document marker starts here. -/
def Cursor.wordStart (k : Cursor) (g : Gap) (text : List Char) : Except SyntaxError Cursor :=
  if g.isEmpty then .ok k else k.need 4 text

/-! ## §2. Plain scalars. -/

/-- Whether a character ends a plain scalar: a colon before white space, and in a flow
    collection also its indicators. -/
def endsPlain (flow : Bool) (c : Char) (rest : List Char) : Bool :=
  (c == ':' && atGap rest) ||
    (flow && (c == ',' || c == '?' || c == '[' || c == ']' || c == '{' || c == '}'))

/-- Reads a plain scalar.  `indent` is the column below which a continuation line of a block
    scalar may not start; `value` is what has been read, latest first. -/
def plainFrom (flow : Bool) (indent : Int) :
    List Char → Cursor → (value : List Char) → Gap → Except SyntaxError Scanned
  | [], k, value, g => do
      let k ← if !flow && k.mark.column < indent then pure k else k.wordStart g []
      return ⟨value.reverse, [], k, g.broken⟩
  | '\r' :: '\n' :: cs, k, value, g => do
      plainFrom flow indent cs (← k.pastBreak 2 ('\r' :: '\n' :: cs)) value (g.lineBreak '\n')
  | c :: cs, k, value, g => do
      if isBreak c then
        plainFrom flow indent cs (← k.pastBreak 1 (c :: cs)) value (g.lineBreak c)
      else if isBlank c then
        if g.broken && k.mark.column < indent && c == '\t' then throw (.tabIndent k.mark)
        else plainFrom flow indent cs (← k.past 1 cs) value (g.blank c)
      else if !g.isEmpty && !flow && k.mark.column < indent then
        return ⟨value.reverse, c :: cs, k, g.broken⟩
      else
        let k ← k.wordStart g (c :: cs)
        let stops := !g.isEmpty && (isDocumentMarker k.mark (c :: cs) || c == '#')
        if stops || endsPlain flow c cs then return ⟨value.reverse, c :: cs, k, g.broken⟩
        else plainFrom flow indent cs (← k.past 2 cs) (c :: g.text ++ value) {}

/-! ## §3. Quoted scalars. -/

/-- What an escape letter stands for. -/
inductive Escape where
  | char (c : Char)
  /-- A code point in the given number of hexadecimal digits. -/
  | code (digits : Nat)

/-- The escape of a letter after a backslash. -/
def escapeOf? (c : Char) : Option Escape :=
  match c with
  | '0' => some (.char '\x00')
  | 'a' => some (.char '\x07')
  | 'b' => some (.char '\x08')
  | 't' => some (.char '\t')
  | '\t' => some (.char '\t')
  | 'n' => some (.char '\n')
  | 'v' => some (.char '\x0b')
  | 'f' => some (.char '\x0c')
  | 'r' => some (.char '\r')
  | 'e' => some (.char '\x1b')
  | ' ' => some (.char ' ')
  | '"' => some (.char '"')
  | '\'' => some (.char '\'')
  | '\\' => some (.char '\\')
  | 'N' => some (.char '\u0085')
  | '_' => some (.char '\u00a0')
  | 'L' => some (.char '\u2028')
  | 'P' => some (.char '\u2029')
  | 'x' => some (.code 2)
  | 'u' => some (.code 4)
  | 'U' => some (.code 8)
  | _ => none

/-- Reads the rest of a single-quoted scalar; a quote inside it is written twice. -/
def singleFrom : List Char → Cursor → (value : List Char) → Gap → Except SyntaxError Scanned
  | [], k, _, _ => .error (.unclosedQuote k.mark)
  | '\r' :: '\n' :: cs, k, value, g => do
      singleFrom cs (← k.pastBreak 2 ('\r' :: '\n' :: cs)) value (g.lineBreak '\n')
  | '\'' :: '\'' :: cs, k, value, g => do
      let k ← k.wordStart g ('\'' :: '\'' :: cs)
      singleFrom cs (← k.step.past 2 cs) ('\'' :: g.text ++ value) {}
  | c :: cs, k, value, g => do
      if isBreak c then singleFrom cs (← k.pastBreak 1 (c :: cs)) value (g.lineBreak c)
      else if isBlank c then singleFrom cs (← k.past 1 cs) value (g.blank c)
      else
        let k ← k.wordStart g (c :: cs)
        if isDocumentMarker k.mark (c :: cs) then throw (.unclosedQuote k.mark)
        else if c == '\'' then
          return { value := (g.text ++ value).reverse, rest := cs, cursor := k.step }
        else singleFrom cs (← k.past 2 cs) (c :: g.text ++ value) {}

/-- Where a double-quoted scalar is being read. -/
inductive QuoteMode where
  | text
  /-- Right behind an escaped line break. -/
  | joined
  /-- After a backslash. -/
  | escape
  /-- Inside a numeric escape: the digits to come, and the value so far. -/
  | digits (left : Nat) (value : Nat)

/-- Reads the rest of a double-quoted scalar.  An escaped line break joins two lines without a
    space. -/
def doubleFrom : QuoteMode → List Char → Cursor → (value : List Char) → Gap →
    Except SyntaxError Scanned
  | _, [], k, _, _ => .error (.unclosedQuote k.mark)
  | .escape, '\r' :: '\n' :: cs, k, value, _ => do
      doubleFrom .joined cs (← k.pastBreak 2 ('\r' :: '\n' :: cs)) value { broken := true }
  | .escape, c :: cs, k, value, _ => do
      if isBreak c then
        doubleFrom .joined cs (← k.pastBreak 1 (c :: cs)) value { broken := true }
      else
        match escapeOf? c with
        | none => throw (.badEscape k.mark)
        | some (.char e) => doubleFrom .text cs (← k.past 2 cs) (e :: value) {}
        | some (.code n) => doubleFrom (.digits n 0) cs (← k.past n cs) value {}
  | .digits left code, c :: cs, k, value, _ => do
      match Text.hexValue? c with
      | none => throw (.badEscape k.mark)
      | some d =>
          let code := 16 * code + d
          if left ≤ 1 then
            match Text.charOf? code with
            | none => throw (.badEscape k.mark)
            | some e => doubleFrom .text cs (← k.past 2 cs) (e :: value) {}
          else doubleFrom (.digits (left - 1) code) cs k.step value {}
  | _, '\r' :: '\n' :: cs, k, value, g => do
      doubleFrom .text cs (← k.pastBreak 2 ('\r' :: '\n' :: cs)) value (g.lineBreak '\n')
  | mode, c :: cs, k, value, g => do
      if isBreak c then
        doubleFrom .text cs (← k.pastBreak 1 (c :: cs)) value (g.lineBreak c)
      else if isBlank c then doubleFrom .text cs (← k.past 1 cs) value (g.blank c)
      else
        let atOnce := match mode with
          | .joined => c == '"'
          | _ => false
        let k ← if atOnce then pure k else k.wordStart g (c :: cs)
        if isDocumentMarker k.mark (c :: cs) then throw (.unclosedQuote k.mark)
        else if c == '"' then
          return { value := (g.text ++ value).reverse, rest := cs, cursor := k.step }
        else if c == '\\' then doubleFrom .escape cs k.step (g.text ++ value) {}
        else doubleFrom .text cs (← k.past 2 cs) (c :: g.text ++ value) {}

/-! ## §4. Block scalars. -/

/-- What becomes of the line breaks at the end of a block scalar. -/
inductive Chomp where
  | strip
  | clip
  | keep
  deriving DecidableEq

/-- What has been read of a block scalar. -/
structure BlockText where
  /-- The text, latest character first. -/
  value : List Char := []
  /-- The break that ended the last line. -/
  lineEnd : Option Char := none
  /-- Breaks of empty lines after it, latest first. -/
  empty : List Char := []
  /-- Whether the last line started with a blank. -/
  leadingBlank : Bool := false

namespace BlockText

/-- Starts a line with its first character, joining it to the text before: in a folded scalar
    the break between two lines that start with no blank becomes a space. -/
def startLine (folded : Bool) (b : BlockText) (c : Char) : BlockText :=
  let blank := isBlank c
  let joint : List Char :=
    if folded && !b.leadingBlank && !blank && b.lineEnd == some '\n' then
      (if b.empty.isEmpty then [' '] else [])
    else b.lineEnd.toList
  { value := c :: b.empty ++ joint ++ b.value, leadingBlank := blank }

/-- The whole text, its end chomped. -/
def finish (chomp : Chomp) (b : BlockText) : List Char :=
  let tail := match chomp with
    | .strip => []
    | .clip => b.lineEnd.toList
    | .keep => b.empty ++ b.lineEnd.toList
  (tail ++ b.value).reverse

end BlockText

/-- Where a block scalar is being read. -/
inductive BlockMode where
  /-- In the indentation of a line.  `indent` is zero until the first line with content fixes
      it; `deepest` is the deepest line so far. -/
  | margin (indent deepest : Nat)
  /-- In a line of content. -/
  | line (indent : Nat)

/-- Reads the lines of a block scalar.  `least` is the smallest indentation it may have. -/
def blockFrom (folded : Bool) (chomp : Chomp) (least : Nat) :
    BlockMode → List Char → Cursor → BlockText → Except SyntaxError Scanned
  | _, [], k, b => .ok { value := b.finish chomp, rest := [], cursor := k, brokeLine := true }
  | .margin i d, '\r' :: '\n' :: cs, k, b => do
      blockFrom folded chomp least (.margin i (max d k.mark.column)) cs
        (← k.pastBreak 2 ('\r' :: '\n' :: cs)) { b with empty := '\n' :: b.empty }
  | .line i, '\r' :: '\n' :: cs, k, b => do
      blockFrom folded chomp least (.margin i 0) cs (← k.pastBreak 2 ('\r' :: '\n' :: cs))
        { b with lineEnd := some '\n' }
  | .margin i d, c :: cs, k, b => do
      let short := i == 0 || k.mark.column < i
      let deepest := max d k.mark.column
      if short && c == ' ' then blockFrom folded chomp least (.margin i d) cs (← k.past 1 cs) b
      else if short && c == '\t' then throw (.tabIndent k.mark)
      else if isBreak c then
        blockFrom folded chomp least (.margin i deepest) cs (← k.pastBreak 1 (c :: cs))
          { b with empty := breakText c :: b.empty }
      else
        let indent := if i == 0 then max deepest least else i
        if k.mark.column == indent then
          blockFrom folded chomp least (.line indent) cs (← k.past 1 cs) (b.startLine folded c)
        else
          return { value := b.finish chomp, rest := c :: cs, cursor := k, brokeLine := true }
  | .line i, c :: cs, k, b => do
      if isBreak c then
        blockFrom folded chomp least (.margin i 0) cs (← k.pastBreak 1 (c :: cs))
          { b with lineEnd := some (breakText c) }
      else
        blockFrom folded chomp least (.line i) cs (← k.past 1 cs) { b with value := c :: b.value }

/-- The chomping indicator that stands here, if any. -/
def chompMark (text : List Char) (k : Cursor) :
    Except SyntaxError (Option Chomp × List Char × Cursor) := do
  match text with
  | '+' :: cs => return (some .keep, cs, ← k.past 1 cs)
  | '-' :: cs => return (some .strip, cs, ← k.past 1 cs)
  | _ => return (none, text, k)

/-- The indentation relative to the parent that is given here, zero if it is not given. -/
def widthMark (text : List Char) (k : Cursor) : Except SyntaxError (Nat × List Char × Cursor) := do
  match text with
  | c :: cs =>
      if c == '0' then throw (.badBlockHeader k.mark)
      else if c.isDigit then return (c.toNat - 0x30, cs, ← k.past 1 cs)
      else return (0, text, k)
  | [] => return (0, text, k)

/-- Reads a block scalar from behind its indicator; `indent` is the indentation of the enclosing
    block, negative outside of any.  The two indicators of its header may come in either order. -/
def blockScalar (folded : Bool) (indent : Int) (text : List Char) (k : Cursor) :
    Except SyntaxError Scanned := do
  let (first, text, k) ← chompMark text k
  let (increment, text, k) ← widthMark text k
  let (second, text, k) ← if first.isSome then pure (first, text, k) else chompMark text k
  let (text, k) ← k.skipWhile isBlank text
  let (text, k) ← if text.head? == some '#' then k.toLineEnd text else pure (text, k)
  if !text.head?.all isBreak then throw (.badBlockHeader k.mark)
  let (text, k) ← k.pastLineEnd text
  let start := if increment == 0 then 0 else indent.toNat + increment
  let least := max (indent + 1).toNat 1
  blockFrom folded (second.getD .clip) least (.margin start 0) text k {}

end Resumable.Yaml
