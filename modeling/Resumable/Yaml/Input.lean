/-
  Resumable.Yaml.Input — the characters of a document.

  A document is UTF-8, or UTF-16 if it starts with the mark of that encoding; a mark is not part
  of the text.  Most control characters may not occur in a document.

  Bytes are decoded in blocks of at most 512.  A character that does not fit into what is left of
  a block starts the next one.  A fault anywhere in a block makes the whole block unreadable, and
  bytes at the end of a document that are only the start of a character are an unreadable block of
  their own.  `Input` holds the characters of the blocks before the first fault, how many each
  block has, and whether there is a fault.
-/
import Resumable.Text.Bytes

namespace Resumable.Yaml

/-- The readable characters of a document. -/
structure Input where
  chars : List Char
  /-- How many of the characters each block holds. -/
  blocks : List Nat
  /-- Whether an unreadable block follows. -/
  broken : Bool
  deriving DecidableEq, Repr

/-- Whether a character may occur in a document. -/
def isAllowed (c : Char) : Bool :=
  let n := c.toNat
  n == 0x09 || n == 0x0A || n == 0x0D || (0x20 ≤ n && n ≤ 0x7E) || n == 0x85 ||
    (0xA0 ≤ n && n ≤ 0xD7FF) || (0xE000 ≤ n && n ≤ 0xFFFD) || 0x10000 ≤ n

/-! ## §1. Encodings. -/

/-- A way to write characters as bytes. -/
structure CharEncoding where
  /-- The number of bytes of the character that starts here, as far as its first bytes tell;
      `none` if no character starts so. -/
  width? : Bytes → Option Nat
  /-- Reads one character off the front of bytes. -/
  read : Bytes → Option (Char × Bytes)

/-- UTF-8. -/
def utf8 : CharEncoding where
  width? bytes := match bytes with
    | [] => some 1
    | lead :: _ => Text.sequenceWidth? lead
  read := Text.decodeChar?

/-- One UTF-16 unit; `big` tells whether its high byte comes first. -/
def unit? (big : Bool) : Bytes → Option (Nat × Bytes)
  | a :: b :: rest =>
      some (if big then a.toNat * 256 + b.toNat else b.toNat * 256 + a.toNat, rest)
  | _ => none

/-- One character in UTF-16. -/
def wideChar? (big : Bool) (bytes : Bytes) : Option (Char × Bytes) := do
  let (hi, rest) ← unit? big bytes
  if 0xD800 ≤ hi && hi < 0xDC00 then
    let (lo, rest) ← unit? big rest
    if 0xDC00 ≤ lo && lo < 0xE000 then
      return (← Text.charOf? (0x10000 + (hi - 0xD800) * 1024 + (lo - 0xDC00)), rest)
    else none
  else
    return (← Text.charOf? hi, rest)

/-- UTF-16; `big` tells whether the high byte of a unit comes first. -/
def utf16 (big : Bool) : CharEncoding where
  width? bytes := match unit? big bytes with
    | none => some 2
    | some (hi, _) =>
        if 0xDC00 ≤ hi && hi < 0xE000 then none
        else if 0xD800 ≤ hi && hi < 0xDC00 then some 4
        else some 2
  read := wideChar? big

/-! ## §2. Blocks. -/

/-- How many bytes are decoded together. -/
def blockSize : Nat := 512

/-- The characters of finished blocks and of the block being read, all latest first. -/
structure Blocks where
  settled : List Char := []
  sizes : List Nat := []
  current : List Char := []

namespace Blocks

/-- Ends the block being read. -/
def close (p : Blocks) : Blocks :=
  if p.current.isEmpty then p
  else { settled := p.current ++ p.settled, sizes := p.current.length :: p.sizes }

/-- The characters of the finished blocks. -/
def input (p : Blocks) (broken : Bool) : Input :=
  ⟨p.settled.reverse, p.sizes.reverse, broken⟩

end Blocks

/-- Whether the character at the front does not fit into `room` bytes. -/
def CharEncoding.overflows (e : CharEncoding) (room : Nat) (bytes : Bytes) : Bool :=
  (e.width? (bytes.take (min room 4))).any (fun width => room < width)

/-- Reads characters until the bytes end or a fault comes up; `room` is how many bytes the block
    being read may still take.  The fuel bounds the number of characters. -/
def readFrom (e : CharEncoding) : (fuel : Nat) → Bytes → (room : Nat) → Blocks → Input
  | _, [], _, p => p.close.input false
  | 0, _ :: _, _, p => p.input true
  | fuel + 1, bytes@(_ :: _), room, p =>
      let full := e.overflows room bytes
      let p := if full then p.close else p
      let room := if full then blockSize else room
      match e.width? bytes with
      | none => p.input true
      | some width =>
          if (bytes.take width).length < width then p.close.input true
          else
            match e.read bytes with
            | none => p.input true
            | some (c, rest) =>
                if isAllowed c then
                  readFrom e fuel rest (room - width) { p with current := c :: p.current }
                else p.input true

/-- The characters of a document. -/
def Input.ofBytes (bytes : Bytes) : Input :=
  let go (e : CharEncoding) (mark : Nat) (rest : Bytes) :=
    readFrom e rest.length rest (blockSize - mark) {}
  match bytes with
  | 0xFF :: 0xFE :: rest => go (utf16 false) 2 rest
  | 0xFE :: 0xFF :: rest => go (utf16 true) 2 rest
  | 0xEF :: 0xBB :: 0xBF :: rest => go utf8 3 rest
  | _ => go utf8 0 bytes

end Resumable.Yaml
