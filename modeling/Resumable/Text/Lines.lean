/-
  Resumable.Text.Lines — white space, and bytes taken line by line.

  White space separates the words of a text and is trimmed off its ends.  A line ends at a line
  feed, and a carriage return right before it belongs to the end.  A line that does not fit the
  buffer is taken in pieces, each of which counts as a line.
-/
import Resumable.Text.Bytes

namespace Resumable.Text

/-! ## §1. White space. -/

/-- Whether a character is white space. -/
def isSpace (c : Char) : Bool :=
  let n := c.toNat
  (9 ≤ n && n ≤ 13) || n == 0x20 || n == 0x85 || n == 0xA0 || n == 0x1680 ||
    (0x2000 ≤ n && n ≤ 0x200A) || n == 0x2028 || n == 0x2029 || n == 0x202F || n == 0x205F ||
    n == 0x3000

/-- The words of a text, where `word` is the one being read, backwards. -/
def wordsFrom : (word : List Char) → List Char → List (List Char)
  | [], [] => []
  | word, [] => [word.reverse]
  | word, c :: rest =>
      if isSpace c then
        if word.isEmpty then wordsFrom [] rest else word.reverse :: wordsFrom [] rest
      else wordsFrom (c :: word) rest

/-- The words of a text. -/
def words (s : String) : List String := (wordsFrom [] s.toList).map String.ofList

/-- A text with every stretch of white space replaced by one blank. -/
def oneLine (s : String) : String := " ".intercalate (words s)

/-- A text without the white space at its ends. -/
def trim (s : String) : String :=
  String.ofList (((s.toList.dropWhile isSpace).reverse.dropWhile isSpace).reverse)

/-! ## §2. Lines. -/

/-- The number of bytes of a line that are taken at once. -/
def longestLine : Nat := 4096

/-- A line, whether it is only a piece, and the bytes behind it. -/
structure TakenLine where
  line : Bytes
  isPiece : Bool
  rest : Bytes

/-- Takes the first line of bytes. -/
def takeLine (bytes : Bytes) : TakenLine :=
  let piece := bytes.take longestLine
  if piece.contains 0x0A then
    let line := piece.takeWhile (· != 0x0A)
    let shown := if line.getLast? == some 0x0D then line.dropLast else line
    ⟨shown, false, bytes.drop (line.length + 1)⟩
  else if piece.length < longestLine then ⟨piece, false, []⟩
  else if piece.getLast? == some 0x0D then ⟨piece.dropLast, true, bytes.drop (longestLine - 1)⟩
  else ⟨piece, true, bytes.drop longestLine⟩

/-- Taking a line leaves fewer bytes. -/
theorem takeLine_rest_lt (b : UInt8) (bytes : Bytes) :
    (takeLine (b :: bytes)).rest.length < (b :: bytes).length := by
  unfold takeLine longestLine
  simp only
  split
  · simp only [List.length_drop, List.length_cons]; omega
  · split
    · simp
    · split <;> simp only [List.length_drop, List.length_cons] <;> omega

/-- The lines of bytes, each with whether it is only a piece. -/
def linesOf : Bytes → List (Bytes × Bool)
  | [] => []
  | b :: bytes =>
      let taken := takeLine (b :: bytes)
      (taken.line, taken.isPiece) :: linesOf taken.rest
termination_by bytes => bytes.length
decreasing_by exact takeLine_rest_lt b bytes

/-- Bytes without white space at both ends; if they are no text, only ASCII white space counts. -/
def trimBytes (bytes : Bytes) : Bytes :=
  match textOf? bytes with
  | some s => bytesOf (trim s)
  | none =>
      let blank (b : UInt8) : Bool := isSpace (Char.ofNat b.toNat) && b < 0x80
      ((bytes.dropWhile blank).reverse.dropWhile blank).reverse

end Resumable.Text
