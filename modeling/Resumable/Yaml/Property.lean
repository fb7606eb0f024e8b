/-
  Resumable.Yaml.Property — anchors, tags and directives.

  A node may carry an anchor and a tag in front of it, and a document may start with directives
  that set its version and give tag handles their meaning.  All of them are words on one line.
-/
import Resumable.Text.Bytes
import Resumable.Yaml.Cursor

namespace Resumable.Yaml

/-! ## §1. Names. -/

/-- A character of an anchor name, a tag handle or a directive name. -/
def isWordChar (c : Char) : Bool := c.isAlphanum || c == '_' || c == '-'

/-- Whether the text may follow the name of an anchor. -/
def endsName (cs : List Char) : Bool :=
  atGap cs || (match cs with
    | c :: _ => "?:,]\x7d%@`".toList.contains c
    | [] => true)

/-- Something read from one line: what it is, the text behind it and the place there. -/
structure Piece (α : Type) where
  value : α
  rest : List Char
  cursor : Cursor

/-- Reads the name of an anchor. -/
def readName (text : List Char) (k : Cursor) : Except SyntaxError (Piece String) := do
  let (name, rest, k) ← k.readWhile isWordChar text []
  if name.isEmpty || !endsName rest then throw (.badProperty k.mark)
  else return ⟨String.ofList name, rest, k⟩

/-! ## §2. Tags. -/

/-- A character of a tag, escapes apart. -/
def isTagChar (c : Char) : Bool :=
  isWordChar c || ";/?:@&=+$,.!~*'()[]".toList.contains c

/-- What an escaped byte is in a tag: the byte at the start of a sequence tells how many follow,
    and the ones that follow have to be continuation bytes.  The result is the number of bytes to
    come, which was `left` before. -/
def bytesLeft? (left : Nat) (b : UInt8) : Option Nat :=
  if left == 0 then (Text.sequenceWidth? b).map (· - 1)
  else if (Text.tailBits? b).isSome then some (left - 1)
  else none

/-- Reads the characters of a tag, with `%XX` for bytes.  `left` is how many more bytes an escaped
    character needs; `read` holds what was read before, latest first. -/
def tagFrom : (left : Nat) → List Char → Cursor → (read : Bytes) →
    Except SyntaxError (Piece Bytes)
  | left, '%' :: a :: b :: cs, k, read => do
      let k ← k.need 3 ('%' :: a :: b :: cs)
      match Text.hexValue? a, Text.hexValue? b with
      | some hi, some lo =>
          let byte := UInt8.ofNat (16 * hi + lo)
          match bytesLeft? left byte with
          | some left => tagFrom left cs (k.jump 3) (byte :: read)
          | none => throw (.badProperty k.mark)
      | _, _ => throw (.badProperty k.mark)
  | left, c :: cs, k, read => do
      let k ← k.need 1 (c :: cs)
      if left != 0 || c == '%' then throw (.badProperty k.mark)
      else if isTagChar c then tagFrom 0 cs k.step (UInt8.ofNat c.toNat :: read)
      else return ⟨read.reverse, c :: cs, k⟩
  | left, [], k, read => do
      let k ← k.need 1 []
      if left != 0 then throw (.badProperty k.mark) else return ⟨read.reverse, [], k⟩

/-- Reads the characters of a tag, of which there has to be one. -/
def tagText (text : List Char) (k : Cursor) : Except SyntaxError (Piece String) := do
  let r ← tagFrom 0 text k []
  if r.value.isEmpty then throw (.badProperty k.mark)
  else return { r with value := Text.lossyText r.value }

/-- A tag as it is written: a handle, empty for a tag in full, and what follows it. -/
structure TagName where
  handle : String
  suffix : String
  deriving DecidableEq, Repr, Inhabited

/-- Reads a tag from behind its first exclamation mark: `!<…>`, `!suffix` or `!handle!suffix`. -/
def readTag (text : List Char) (k : Cursor) : Except SyntaxError (Piece TagName) := do
  let r ← name
  let k ← r.cursor.need 1 r.rest
  if atGap r.rest then return { r with cursor := k } else throw (.badProperty k.mark)
where
  name : Except SyntaxError (Piece TagName) := do
    match text with
    | '<' :: rest =>
        let r ← tagText rest k.step
        match r.rest with
        | '>' :: after => return ⟨⟨"", r.value⟩, after, r.cursor.step⟩
        | _ => throw (.badProperty k.mark)
    | _ =>
        let (word, after, behind) ← k.readWhile isWordChar text []
        match after with
        | '!' :: after =>
            let r ← tagText after behind.step
            return ⟨⟨String.ofList ('!' :: word ++ ['!']), r.value⟩, r.rest, r.cursor⟩
        | _ =>
            let start := word.map (fun c => UInt8.ofNat c.toNat)
            let r ← tagFrom 0 after behind start.reverse
            let name := if r.value.isEmpty then ⟨"", "!"⟩ else ⟨"!", Text.lossyText r.value⟩
            return ⟨name, r.rest, r.cursor⟩

/-! ## §3. Directives. -/

/-- What a directive says. -/
inductive Directive where
  | version (major minor : Nat)
  /-- A tag handle and what it stands for. -/
  | tagHandle (handle stem : String)
  deriving DecidableEq, Repr

/-- Reads a number of a version, which has one or two digits. -/
def versionNumber (text : List Char) (k : Cursor) : Except SyntaxError (Piece Nat) := do
  let (digits, rest, k) ← k.readWhile Char.isDigit text []
  match digits with
  | [a] => return ⟨a.toNat - 0x30, rest, k⟩
  | [a, b] => return ⟨10 * (a.toNat - 0x30) + (b.toNat - 0x30), rest, k⟩
  | _ => throw (.badDirective k.mark)

/-- Reads the version of a version directive. -/
def readVersion (text : List Char) (k : Cursor) : Except SyntaxError (Piece Directive) := do
  let major ← versionNumber text k
  match major.rest with
  | '.' :: rest =>
      let minor ← versionNumber rest major.cursor.step
      return ⟨.version major.value minor.value, minor.rest, minor.cursor⟩
  | _ => throw (.badDirective k.mark)

/-- Reads the handle of a tag directive, `!` or `!word!`. -/
def readHandle (text : List Char) (k : Cursor) : Except SyntaxError (Piece String) := do
  match text with
  | '!' :: rest =>
      let (word, rest, k) ← k.step.readWhile isWordChar rest []
      match rest with
      | '!' :: rest => return ⟨String.ofList ('!' :: word ++ ['!']), rest, k.step⟩
      | _ => if word.isEmpty then return ⟨"!", rest, k⟩ else throw (.badDirective k.mark)
  | _ => throw (.badDirective k.mark)

/-- Reads the handle and the stem of a tag directive. -/
def readTagHandle (text : List Char) (k : Cursor) : Except SyntaxError (Piece Directive) := do
  let handle ← readHandle text k
  let (blanks, rest, k) ← handle.cursor.readWhile isBlank handle.rest []
  if blanks.isEmpty then throw (.badDirective k.mark)
  let stem ← tagText rest k
  if atGap stem.rest then
    return ⟨.tagHandle handle.value stem.value, stem.rest, stem.cursor⟩
  else throw (.badDirective stem.cursor.mark)

/-- Reads a directive line from behind its percent sign. -/
def readDirective (text : List Char) (k : Cursor) : Except SyntaxError (Piece Directive) := do
  let (name, rest, k) ← k.readWhile isWordChar text []
  if !atGap rest then throw (.badDirective k.mark)
  let (rest, k) ← k.skipWhile isBlank rest
  let r ←
    if name == "YAML".toList then readVersion rest k
    else if name == "TAG".toList then readTagHandle rest k
    else throw (.badDirective k.mark)
  let (rest, k) ← r.cursor.skipWhile isBlank r.rest
  let (rest, k) ← if rest.head? == some '#' then k.toLineEnd rest else pure (rest, k)
  if !rest.head?.all isBreak then throw (.badDirective k.mark)
  let (rest, k) ← k.pastLineEnd rest
  return ⟨r.value, rest, k⟩

end Resumable.Yaml
