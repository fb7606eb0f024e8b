/-
  Resumable.CommandLine.Conversation — compiling one line after the other.

  Each line is a document, or a command behind a colon.  Lines are remembered from one
  conversation to the next.
-/
import Resumable.CommandLine.Work
import Resumable.Output.Format

namespace Resumable.CommandLine

open Output (Format)

variable {m : Type → Type} [Monad m]

/-! ## §1. What is remembered. -/

/-- The number of lines that are remembered. -/
def mostRemembered : Nat := 1000

/-- The lines typed so far, the oldest first. -/
abbrev History := List Bytes

namespace History

/-- A history with one more line; the oldest is dropped if there are too many. -/
def push (h : History) (line : Bytes) : History :=
  let h := h ++ [line]
  if h.length > mostRemembered then h.drop 1 else h

/-- A history with one more line, unless it is the last one again. -/
def add (h : History) (line : Bytes) : History :=
  if h.getLast? == some line then h else h.push line

/-- The history on the lines of a file, up to the first one that is too long or no text. -/
def ofLines : List (Bytes × Bool) → History → History
  | [], h => h
  | (line, isPiece) :: rest, h =>
      if isPiece || (Text.textOf? line).isNone then h else ofLines rest (h.push line)

/-- The file of a history. -/
def toBytes (h : History) : Bytes := h.flatMap (fun line => line ++ [0x0A])

/-- The name of the file, in the directory of the user. -/
def fileName : String := ".druta_history"

end History

/-! ## §2. Lines. -/

/-- A conversation. -/
structure Conversation where
  work : Work
  format : Format
  history : History := []

namespace Conversation

/-- The first line of a conversation. -/
def banner : String :=
  "druta repl: enter a one-line tree document, :format <name> to switch output, :quit to exit\n"

/-- What is shown before a line is read. -/
def prompt : String := "druta> "

/-- The form a conversation starts with: one that is not one text is shown as an outline. -/
def startFormat (f : Format) : Format := if f.isSpoken then f else .tree

/-- What a line asks for. -/
inductive Request where
  /-- Nothing. -/
  | nothing
  | quit
  | format (f : Format)
  /-- A form that cannot be switched to. -/
  | badFormat
  | unknown
  | document (bytes : Bytes)
  deriving Repr

/-- Reads a line without white space around it. -/
def Request.ofLine (line : Bytes) : Request :=
  if line.isEmpty then .nothing
  else if line.head? != some 0x3A then .document line
  else match Text.words ((Text.textOf? line).getD "") with
    | [":quit"] | [":q"] => .quit
    | ":quit" :: _ | ":q" :: _ => .quit
    | [":format", name] =>
        match (Format.ofName? name).filter Format.isSpoken with
        | some f => .format f
        | none => .badFormat
    | ":format" :: _ => .badFormat
    | _ => .unknown

/-- Bytes without the line feeds at their end. -/
def trimEnd (bytes : Bytes) : Bytes := (bytes.reverse.dropWhile (· == 0x0A)).reverse

/-- Writes a text to standard output. -/
def say (h : Host m) (s : String) : m Unit := h.say (Text.bytesOf s)

/-- Answers a line; whether the conversation ends. -/
def answer (h : Host m) (line : Bytes) (c : Conversation) : m (Conversation × Bool) := do
  let line := Text.trimBytes line
  let c := if line.isEmpty then c else { c with history := c.history.add line }
  match Request.ofLine line with
  | .nothing => return (c, false)
  | .quit => return (c, true)
  | .format f => return ({ c with format := f }, false)
  | .badFormat =>
      say h "formats: json, yaml, tree, source\n"
      return (c, false)
  | .unknown =>
      say h "unknown command. Type :quit to exit.\n"
      return (c, false)
  | .document bytes =>
      let (out, work) ← c.work.compile h bytes
      match out with
      | .ok out => h.say (trimEnd (Output.write out c.format) ++ [0x0A])
      | .error e => h.warn e.message
      return ({ c with work }, false)

/-- Holds a conversation until the input or the user ends it. -/
def hold (h : Host m) (work : Work) (format : Format) : m Unit := do
  say h banner
  let path := Files.pathTo ((← h.home) ++ [History.fileName])
  let history := match ← h.read path with
    | some bytes => History.ofLines (Text.linesOf bytes) []
    | none => []
  say h prompt
  let step (line : Bytes) (c : Conversation) : m (Conversation × Bool) := do
    let (c, stopped) ← answer h line c
    if !stopped then say h prompt
    return (c, stopped)
  let (c, stopped) ← h.eachLine step { work, format := startFormat format, history }
  if !stopped then say h "\n"
  let _ ← h.write path c.history.toBytes

end Conversation

end Resumable.CommandLine
