/-
  Resumable.Browser.Field — a line of text being edited.

  A field has a cursor and shows a window of its text: all of it if it fits, and otherwise a part
  that follows the cursor.
-/
import Resumable.Text.Columns
import Resumable.Text.Lines

namespace Resumable.Browser

/-- A line of text being edited. -/
structure Field where
  chars : List Char := []
  /-- The number of characters before the cursor. -/
  cursor : Nat := 0
  /-- The first character of the window. -/
  left : Nat := 0
  /-- The character behind the window. -/
  right : Nat := 0
  deriving DecidableEq, Repr, Inhabited

/-- The number of columns of the window. -/
def fieldWidth : Nat := 40

namespace Field

/-- The text of a field. -/
def value (f : Field) : String := String.ofList f.chars

/-! ## §1. The window. -/

/-- How many characters fit a window that starts with them, behind `used` columns. -/
def fitting : (used : Nat) → List Char → Nat
  | _, [] => 0
  | used, c :: rest =>
      let used' := used + Text.columns c
      if fieldWidth < used || fieldWidth + 1 < used' then 0 else fitting used' rest + 1

/-- How many characters fit a window that ends with them, last first, behind `used` columns; the
    first character of the text is never counted. -/
def fittingBack : (used : Nat) → List Char → Nat
  | _, [] | _, [_] => 0
  | used, c :: rest =>
      let used' := used + Text.columns c
      if fieldWidth ≤ used || fieldWidth < used' then 0 else fittingBack used' rest + 1

/-- Moves the window to the cursor. -/
def settled (f : Field) : Field :=
  if Text.width f.chars ≤ fieldWidth then { f with left := 0, right := f.chars.length }
  else
    let f := { f with right := Nat.min f.right f.chars.length }
    if f.cursor < f.left then
      { f with left := f.cursor, right := f.cursor + fitting 0 (f.chars.drop f.cursor) }
    else if f.right ≤ f.cursor then
      { f with left := f.cursor - fittingBack 0 (f.chars.take f.cursor).reverse, right := f.cursor }
    else f

/-- The characters in the window. -/
def window (f : Field) : String := String.ofList ((f.chars.take f.right).drop f.left)

/-! ## §2. Editing. -/

/-- Moves the cursor, at most to the end. -/
def moveTo (f : Field) (cursor : Nat) : Field :=
  { f with cursor := min cursor f.chars.length }.settled

/-- The characters before the cursor, the nearest first. -/
def before (f : Field) : List Char := (f.chars.take f.cursor).reverse

/-- The characters behind the cursor. -/
def behind (f : Field) : List Char := f.chars.drop f.cursor

/-- Typed characters as they are inserted: breaks and tabs become spaces, and other control
    characters are dropped. -/
def typable (cs : List Char) : List Char :=
  cs.flatMap fun c =>
    if c == '\n' || c == '\r' || c == '\t' then [' ']
    else if c.toNat < 0x20 || (0x7F ≤ c.toNat && c.toNat < 0xA0) || c.toNat == 0xFFFD then []
    else [c]

/-- Inserts typed characters at the cursor. -/
def insert (f : Field) (cs : List Char) : Field :=
  let cs := typable cs
  { f with
    chars := f.chars.take f.cursor ++ cs ++ f.behind
    cursor := f.cursor + cs.length }.settled

/-- Removes the characters between the cursor and a place before it. -/
def cutBack (f : Field) (place : Nat) : Field :=
  let behind := f.behind
  let f := f.moveTo place
  { f with chars := f.chars.take place ++ behind }.settled

/-- Removes characters behind the cursor. -/
def cutAhead (f : Field) (count : Nat) : Field :=
  { f with chars := f.chars.take f.cursor ++ f.behind.drop count }.settled

/-- A field without text. -/
def cleared (f : Field) : Field := { f with chars := [], cursor := 0 }.settled

/-- The length of the blanks and the word that characters start with. -/
def wordLength (cs : List Char) : Nat :=
  let word := cs.dropWhile Text.isSpace
  cs.length - (word.dropWhile (fun c => !Text.isSpace c)).length

/-- Removes the word before the cursor; a single blank at the start goes with it. -/
def cutWordBack (f : Field) : Field :=
  let left := f.before.length - wordLength f.before
  f.cutBack (if left ≤ 1 then 0 else left)

/-- Removes the word behind the cursor. -/
def cutWordAhead (f : Field) : Field :=
  match f.behind with
  | [] => f
  | _ :: rest => f.cutAhead (wordLength rest + 1)

/-! ## §3. Keys. -/

/-- What a key does, by its name; a key without such a name inserts what was typed. -/
def press (f : Field) (name : String) (typed : List Char) : Field :=
  if name == "alt+backspace" || name == "ctrl+w" then f.cutWordBack
  else if name == "backspace" || name == "ctrl+h" then f.cutBack (f.cursor - 1)
  else if name == "alt+left" || name == "ctrl+left" || name == "alt+b" then
    f.moveTo (f.cursor - wordLength f.before)
  else if name == "left" || name == "ctrl+b" then f.moveTo (f.cursor - 1)
  else if name == "alt+right" || name == "ctrl+right" || name == "alt+f" then
    f.moveTo (f.cursor + wordLength f.behind)
  else if name == "right" || name == "ctrl+f" then f.moveTo (f.cursor + 1)
  else if name == "home" || name == "ctrl+a" then f.moveTo 0
  else if name == "delete" || name == "ctrl+d" then f.cutAhead 1
  else if name == "end" || name == "ctrl+e" then f.moveTo f.chars.length
  else if name == "ctrl+k" then f.cutAhead f.behind.length
  else if name == "ctrl+u" then f.cutBack 0
  else if name == "alt+delete" || name == "alt+d" then f.cutWordAhead
  else if ["ctrl+v", "down", "ctrl+n", "up", "ctrl+p"].contains name then f.settled
  else f.insert typed

end Field

end Resumable.Browser
