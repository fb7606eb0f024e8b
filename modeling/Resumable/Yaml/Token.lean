/-
  Resumable.Yaml.Token — the tokens of a document.

  Tokens are produced on demand, because only a document's first root node is read and what
  follows it may be anything.  The one difficulty is that a mapping key is recognised by the
  colon after it: a token that may start such a key is remembered (`SimpleKey`), and if a colon
  follows on the same line a key token is put in front of it after the fact.  Hence a token is
  handed out only when its own role is settled and two more are known.
-/
import Std.Data.TreeMap
import Resumable.Yaml.Comment
import Resumable.Yaml.Input
import Resumable.Yaml.Property
import Resumable.Yaml.Scalar

namespace Resumable.Yaml

/-! ## §1. Tokens. -/

/-- What a token is. -/
inductive TokenKind where
  | streamEnd
  | directive (d : Directive)
  | documentStart
  | documentEnd
  | blockSequenceStart
  | blockMappingStart
  | blockEnd
  | flowSequenceStart
  | flowSequenceEnd
  | flowMappingStart
  | flowMappingEnd
  | blockEntry
  | flowEntry
  | key
  | value
  | reference (name : String)
  | anchor (name : String)
  | tag (name : TagName)
  | scalar (value : String) (style : ScalarStyle)
  deriving DecidableEq, Repr, Inhabited

/-- A token and where it starts. -/
structure Token where
  kind : TokenKind
  mark : Mark
  deriving DecidableEq, Repr, Inhabited

/-- A token that may turn out to start a mapping key. -/
structure SimpleKey where
  possible : Bool := false
  /-- Whether the line has to be a key. -/
  required : Bool := false
  /-- The number of the token. -/
  number : Nat := 0
  mark : Mark := {}
  deriving Repr, Inhabited

/-- The state of the scanner. -/
structure Scanner where
  /-- The characters to come. -/
  rest : List Char
  /-- The place where they start. -/
  cursor : Cursor
  /-- A bound on the number of tokens one call can produce. -/
  limit : Nat
  /-- The tokens produced so far. -/
  tokens : Array Token := #[]
  /-- How many of them have been handed out. -/
  taken : Nat := 0
  /-- How many flow collections are open. -/
  flowLevel : Nat := 0
  /-- The column of the current block collection, `-1` outside of any. -/
  indent : Int := -1
  /-- The columns of the enclosing block collections. -/
  outer : List Int := []
  /-- Whether a mapping key may start here. -/
  keyAllowed : Bool := true
  /-- The possible keys of the flow levels, that of the current level last. -/
  keys : Array SimpleKey := #[{}]
  /-- The numbers of tokens that wait for a colon, each with the flow level of its key. -/
  waiting : Std.TreeMap Nat Nat := {}
  /-- Whether the last token was a scalar whose reader went past its last line. -/
  pastLine : Bool := false
  deriving Inhabited

/-- A scanning step. -/
abbrev Scan := StateT Scanner (Except SyntaxError)

/-- How many collections of a kind may be nested. -/
def nestingLimit : Nat := 10000

namespace Scanner

/-- A scanner at the start of a document. -/
def ofInput (i : Input) : Scanner :=
  { rest := i.chars
    cursor := { blocks := i.blocks, broken := i.broken }
    limit := i.chars.length + 4 }

/-- The place where the characters to come start. -/
def mark (s : Scanner) : Mark := s.cursor.mark

/-- Looks at the next `n` characters. -/
def need (s : Scanner) (n : Nat) : Except SyntaxError Scanner := do
  return { s with cursor := ← s.cursor.need n s.rest }

/-! ## §2. Mapping keys and indentation. -/

/-- The possible key of the current flow level. -/
def topKey (s : Scanner) : SimpleKey := s.keys.back?.getD {}

/-- Replaces the possible key of a flow level. -/
def setKeyAt (s : Scanner) (level : Nat) (k : SimpleKey) : Scanner :=
  { s with keys := s.keys.setIfInBounds level k }

/-- Replaces the possible key of the current flow level. -/
def setTopKey (s : Scanner) (k : SimpleKey) : Scanner := s.setKeyAt (s.keys.size - 1) k

/-- Stops waiting for the colon behind a token. -/
def settleToken (s : Scanner) (number : Nat) : Scanner :=
  { s with waiting := s.waiting.erase number }

/-- Whether a possible key can still become one: it has to be on the current line and within
    1024 characters. -/
def keyIsValid (s : Scanner) (k : SimpleKey) : Except SyntaxError Bool :=
  if !k.possible then .ok false
  else if k.mark.line < s.mark.line || k.mark.index + 1024 < s.mark.index then
    if k.required then .error (.missingColon k.mark) else .ok false
  else .ok true

/-- Adds a token at the end. -/
def add (s : Scanner) (kind : TokenKind) (mark : Mark) : Scanner :=
  { s with tokens := s.tokens.push ⟨kind, mark⟩ }

/-- Adds a token in front of the one with the given number, or at the end if that one has been
    handed out. -/
def insertAt (s : Scanner) (number : Nat) (kind : TokenKind) (mark : Mark) : Scanner :=
  if number < s.taken then s.add kind mark
  else { s with tokens := s.tokens.insertIdxIfInBounds number ⟨kind, mark⟩ }

/-- Closes the block collections that are indented deeper than `column`. -/
def unrollTo (column : Int) (indent : Int) : List Int → Array Token → Mark →
    Int × List Int × Array Token
  | [], tokens, _ => (indent, [], tokens)
  | o :: outer, tokens, mark =>
      if indent > column then unrollTo column o outer (tokens.push ⟨.blockEnd, mark⟩) mark
      else (indent, o :: outer, tokens)

/-- Closes the block collections that end at a column; flow collections ignore indentation. -/
def unroll (s : Scanner) (column : Int) : Scanner :=
  if s.flowLevel > 0 then s
  else
    let (indent, outer, tokens) := unrollTo column s.indent s.outer s.tokens s.mark
    { s with indent, outer, tokens }

/-- Opens a block collection if the column is deeper than the current one.  Its token goes in
    front of the token with the given number, or to the end. -/
def roll (s : Scanner) (column : Nat) (number : Option Nat) (kind : TokenKind) (mark : Mark) :
    Except SyntaxError Scanner :=
  if s.flowLevel > 0 || column ≤ s.indent then .ok s
  else if nestingLimit ≤ s.outer.length then .error .tooDeep
  else
    let s := { s with outer := s.indent :: s.outer, indent := column }
    .ok (match number with
      | some n => s.insertAt n kind mark
      | none => s.add kind mark)

/-- Gives up the possible key of the current flow level. -/
def removeKey (s : Scanner) : Except SyntaxError Scanner :=
  let k := s.topKey
  if !k.possible then .ok s
  else if k.required then .error (.missingColon k.mark)
  else .ok ((s.setTopKey { k with possible := false }).settleToken k.number)

/-- Remembers that a key may start here. -/
def saveKey (s : Scanner) : Except SyntaxError Scanner :=
  if s.keyAllowed then do
    let required := s.flowLevel == 0 && s.indent == s.mark.column
    let number := s.tokens.size
    let s ← s.removeKey
    let s := s.setTopKey { possible := true, required, number, mark := s.mark }
    return { s with waiting := s.waiting.insert number (s.keys.size - 1) }
  else .ok s

/-! ## §3. Tokens of one character and the ends of things. -/

/-- Moves over characters of the current line that have been looked at. -/
def advance (s : Scanner) (count : Nat) : Scanner :=
  { s with rest := s.rest.drop count, cursor := s.cursor.jump count }

/-- Adds a token for an indicator of `width` characters. -/
def indicator (s : Scanner) (kind : TokenKind) (width : Nat) : Scanner :=
  (s.add kind s.mark).advance width

/-- The end of the stream or of a document: all blocks are closed and no key is possible. -/
def closeAll (s : Scanner) : Except SyntaxError Scanner := do
  let s ← (s.unroll (-1)).removeKey
  return { s with keyAllowed := false }

/-- The token for the end of the stream. -/
def streamEnd (s : Scanner) : Except SyntaxError Scanner := do
  let mark := if s.mark.column == 0 then s.mark
    else { s.mark with column := 0, line := s.mark.line + 1 }
  let s ← { s with cursor := { s.cursor with mark } }.closeAll
  return s.add .streamEnd s.mark

/-- A document marker. -/
def documentMarker (s : Scanner) (kind : TokenKind) : Except SyntaxError Scanner := do
  return (← s.closeAll).indicator kind 3

/-- The start of a flow collection. -/
def flowStart (s : Scanner) (kind : TokenKind) : Except SyntaxError Scanner := do
  let s ← s.saveKey
  if nestingLimit ≤ s.flowLevel then .error .tooDeep
  else
    let key : SimpleKey := { number := s.tokens.size, mark := s.mark }
    let s := { s with flowLevel := s.flowLevel + 1, keys := s.keys.push key, keyAllowed := true }
    return s.indicator kind 1

/-- The end of a flow collection. -/
def flowEnd (s : Scanner) (kind : TokenKind) : Except SyntaxError Scanner := do
  let s ← s.removeKey
  let s := if s.flowLevel == 0 then s
    else { s.settleToken s.topKey.number with
      flowLevel := s.flowLevel - 1
      keys := s.keys.pop }
  return { s with keyAllowed := false }.indicator kind 1

/-- A comma in a flow collection. -/
def flowEntry (s : Scanner) : Except SyntaxError Scanner := do
  let s ← s.removeKey
  return { s with keyAllowed := true }.indicator .flowEntry 1

/-- Opens a block collection for an indicator at the current place. -/
def openBlock (s : Scanner) (kind : TokenKind) : Except SyntaxError Scanner :=
  if s.flowLevel > 0 then .ok s
  else if s.keyAllowed then s.roll s.mark.column none kind s.mark
  else .error (.misplacedIndicator s.mark)

/-- A dash. -/
def blockEntry (s : Scanner) : Except SyntaxError Scanner := do
  let s ← s.openBlock .blockSequenceStart
  let s ← s.removeKey
  return { s with keyAllowed := true }.indicator .blockEntry 1

/-- A question mark. -/
def keyMark (s : Scanner) : Except SyntaxError Scanner := do
  let s ← s.openBlock .blockMappingStart
  let s ← s.removeKey
  return { s with keyAllowed := s.flowLevel == 0 }.indicator .key 1

/-- A colon: the value of the possible key before it if there is one. -/
def valueMark (s : Scanner) : Except SyntaxError Scanner := do
  let k := s.topKey
  if ← s.keyIsValid k then
    let s := s.insertAt k.number .key k.mark
    let s ← s.roll k.mark.column (some k.number) .blockMappingStart k.mark
    let s := (s.setTopKey { k with possible := false }).settleToken k.number
    return { s with keyAllowed := false }.indicator .value 1
  else
    let s := s.setTopKey { k with possible := false }
    let s ← s.openBlock .blockMappingStart
    return { s with keyAllowed := s.flowLevel == 0 }.indicator .value 1

/-! ## §4. Longer tokens. -/

/-- Adds a token that was read from one line. -/
def piece {α : Type} (s : Scanner) (kind : α → TokenKind) (p : Piece α) : Scanner :=
  { s.add (kind p.value) s.mark with rest := p.rest, cursor := p.cursor }

/-- A directive line. -/
def directiveLine (s : Scanner) : Except SyntaxError Scanner := do
  let s ← s.closeAll
  return s.piece .directive (← readDirective (s.rest.drop 1) s.cursor.step)

/-- An anchor or an alias. -/
def named (s : Scanner) (kind : String → TokenKind) : Except SyntaxError Scanner := do
  let s ← s.saveKey
  let s := { s with keyAllowed := false }
  return s.piece kind (← readName (s.rest.drop 1) s.cursor.step)

/-- A tag. -/
def tag (s : Scanner) : Except SyntaxError Scanner := do
  let s ← s.saveKey
  let s := { s with keyAllowed := false }
  return s.piece .tag (← readTag (s.rest.drop 1) s.cursor.step)

/-- Adds a scalar that was read from the current place on. -/
def scalar (s : Scanner) (style : ScalarStyle) (r : Scanned) : Scanner :=
  { s.add (.scalar (String.ofList r.value) style) s.mark with
    rest := r.rest
    cursor := r.cursor
    pastLine := r.brokeLine }

/-- A quoted scalar. -/
def quotedScalar (s : Scanner) (single : Bool) : Except SyntaxError Scanner := do
  let s ← s.saveKey
  let s := { s with keyAllowed := false }
  let body := s.rest.drop 1
  let k ← s.cursor.past 4 body
  if single then return s.scalar .singleQuoted (← singleFrom body k [] {})
  else return s.scalar .doubleQuoted (← doubleFrom .text body k [] {})

/-- A literal or folded block scalar. -/
def blockText (s : Scanner) (folded : Bool) : Except SyntaxError Scanner := do
  let s ← s.removeKey
  let s := { s with keyAllowed := true }
  let body := s.rest.drop 1
  let r ← blockScalar folded s.indent body (← s.cursor.past 1 body)
  return s.scalar (if folded then .folded else .literal) r

/-- A plain scalar. -/
def plainScalar (s : Scanner) : Except SyntaxError Scanner := do
  let s ← s.saveKey
  let r ← plainFrom (s.flowLevel > 0) (s.indent + 1) s.rest s.cursor [] {}
  return { s with keyAllowed := r.brokeLine }.scalar .plain r

/-- Whether a plain scalar may start with the character. -/
def startsPlain (flow : Bool) (c : Char) (rest : List Char) : Bool :=
  (!isBlank c && !"-?:,[]\x7b\x7d#&*!|>'\"%@`".toList.contains c) ||
    (c == '-' && !(rest.head?.any isBlank)) ||
    (!flow && (c == '?' || c == ':') && !atGap rest)

/-! ## §5. Producing a token. -/

/-- Produces the token of content that starts with the given character. -/
def content (s : Scanner) (c : Char) (cs : List Char) : Except SyntaxError Scanner :=
  let flow := s.flowLevel > 0
  if c == '[' then s.flowStart .flowSequenceStart
  else if c == '{' then s.flowStart .flowMappingStart
  else if c == ']' then s.flowEnd .flowSequenceEnd
  else if c == '}' then s.flowEnd .flowMappingEnd
  else if c == ',' then s.flowEntry
  else if c == '-' && atGap cs then s.blockEntry
  else if c == '?' && (flow || atGap cs) then s.keyMark
  else if c == ':' && (flow || atGap cs) then s.valueMark
  else if c == '*' then s.named .reference
  else if c == '&' then s.named .anchor
  else if c == '!' then s.tag
  else if c == '|' && !flow then s.blockText false
  else if c == '>' && !flow then s.blockText true
  else if c == '\'' then s.quotedScalar true
  else if c == '"' then s.quotedScalar false
  else if startsPlain flow c cs then s.plainScalar
  else .error (.unexpectedCharacter s.mark)

/-- Skips a comment behind the last token on its line.  A comment behind a dash is left for the
    next token, and behind a scalar that went past its last line there is none. -/
def trailingComment (s : Scanner) : Except SyntaxError Scanner := do
  if s.tokens.back?.any (fun t => t.kind == .blockEntry) || s.pastLine then return s
  else
    let (rest, cursor) ← lineComment s.rest s.cursor
    return { s with rest, cursor }

/-- Produces the next token. -/
def produce (s : Scanner) : Except SyntaxError Scanner := do
  let (keyAllowed, rest, cursor) ←
    toToken (s.flowLevel > 0) .lineStart s.keyAllowed s.rest s.cursor
  let s := { s with keyAllowed, rest, cursor, pastLine := false }
  let s ← (s.unroll s.mark.column).need 4
  match s.rest with
  | [] => s.streamEnd
  | c :: cs =>
      if s.mark.column == 0 && c == '%' then s.directiveLine
      else if s.mark.column == 0 && isMarker '-' s.rest then s.documentMarker .documentStart
      else if s.mark.column == 0 && isMarker '.' s.rest then s.documentMarker .documentEnd
      else (← s.content c cs).trailingComment

/-! ## §6. Handing out tokens. -/

/-- Whether the next token can be handed out: two more are known, and it does not start a key
    that is still open.  A key that cannot become one any more is given up. -/
def isSettled (s : Scanner) : Except SyntaxError (Bool × Scanner) := do
  if s.tokens.size ≤ s.taken + 2 then return (false, s)
  else
    match s.waiting.get? s.taken with
    | none => return (true, s)
    | some level =>
        let k := s.keys.getD level {}
        if ← s.keyIsValid k then return (false, s)
        else return (true, s.setKeyAt level { k with possible := false })

/-- Produces tokens until the next one can be handed out.  The fuel bounds how many. -/
def settle (s : Scanner) : (fuel : Nat) → Except SyntaxError Scanner
  | 0 => .ok s
  | fuel + 1 => do
      let (settled, s) ← s.isSettled
      if settled then return s else (← s.produce).settle fuel

/-- The next token, which stays in place. -/
def peek : Scan Token := do
  let s ← get
  let s ← s.settle s.limit
  set s
  return s.tokens.getD s.taken ⟨.streamEnd, s.mark⟩

/-- Takes the next token away. -/
def skip : Scan Unit :=
  modify (fun s => { s with taken := s.taken + 1 })

end Scanner

end Resumable.Yaml
