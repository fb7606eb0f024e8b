/-
  Resumable.Browser.Screen — looking through compiled code.

  The browser waits for a compiled unit, then shows its rows around a selected one.  A filter
  narrows the rows; the source can be shown in their place.
-/
import Resumable.Browser.Field
import Resumable.Browser.Row
import Resumable.Program.Compile

namespace Resumable.Browser

/-- What a browser shows. -/
structure Screen where
  /-- The name of the document. -/
  name : String
  /-- Why there is nothing to show. -/
  failure : Option Failure := none
  output : Option Program.Output := none
  rows : List Row := []
  /-- The rows that the filter leaves. -/
  visible : List Row := []
  filter : Field := {}
  selected : Nat := 0
  /-- The number of rows on the screen. -/
  height : Nat := 20
  /-- Whether keys go to the filter. -/
  filtering : Bool := false
  showsSource : Bool := false

/-- A key: its name, which is the typed text for a key that types. -/
structure KeyPress where
  name : String
  typed : List Char := []
  deriving DecidableEq, Repr

/-- What a browser is told. -/
inductive Message where
  /-- The number of lines of the terminal. -/
  | resized (lines : Int)
  | compiled (result : Except Failure Program.Output)
  | key (k : KeyPress)

namespace Screen

/-! ## §1. Messages. -/

/-- The lines of a terminal that are not for rows. -/
def framing : Int := 8

/-- What a key does while the filter is edited. -/
def pressFiltering (s : Screen) (k : KeyPress) : Screen :=
  if k.name == "enter" || k.name == "esc" then { s with filtering := false }
  else
    let filter := s.filter.press k.name k.typed
    { s with filter, visible := filterRows s.rows filter.value, selected := 0 }

/-- What a key does, and whether it ends the browser. -/
def press (s : Screen) (k : KeyPress) : Screen × Bool :=
  if s.filtering then (s.pressFiltering k, false)
  else match k.name with
    | "ctrl+c" | "q" => (s, true)
    | "up" | "k" => ({ s with selected := s.selected - 1 }, false)
    | "down" | "j" =>
        (if s.selected + 1 < s.visible.length then { s with selected := s.selected + 1 } else s,
         false)
    | "/" => ({ s with filtering := true }, false)
    | "s" => ({ s with showsSource := !s.showsSource }, false)
    | "esc" => ({ s with filter := s.filter.cleared, visible := s.rows, selected := 0 }, false)
    | _ => (s, false)

/-- The screen after a message, and whether the browser ends. -/
def update (s : Screen) : Message → Screen × Bool
  | .resized lines =>
      (if framing < lines then { s with height := (lines - framing).toNat } else s, false)
  | .compiled (.error e) => ({ s with failure := some e }, false)
  | .compiled (.ok out) =>
      let rows := rowsOfAll 0 out.code
      ({ s with output := some out, rows, visible := rows }, false)
  | .key k => s.press k

/-! ## §2. The view. -/

/-- A text as it is drawn: a tab takes four columns. -/
def drawn : List Char → List Char
  | [] => []
  | '\t' :: rest => ' ' :: ' ' :: ' ' :: ' ' :: drawn rest
  | '\r' :: '\n' :: rest => '\n' :: drawn rest
  | c :: rest => c :: drawn rest

/-- A drawn text. -/
def draw (s : String) : String := String.ofList (drawn s.toList)

/-- A row as it is drawn. -/
def rowText (r : Row) : String :=
  let indent := String.ofList (List.replicate (2 * r.depth) ' ')
  let command := draw (if r.async then r.command ++ "*" else r.command)
  if r.text.isEmpty then indent ++ command else indent ++ command ++ " " ++ draw r.text

/-- The first row on the screen. -/
def top (s : Screen) : Nat := if s.height ≤ s.selected then s.selected + 1 - s.height else 0

/-- The rows on the screen, each with whether it is selected. -/
def shownRows (s : Screen) : List (Row × Bool) :=
  ((s.visible.drop s.top).take s.height).zipIdx.map
    (fun (r, i) => (r, s.top + i == s.selected))

/-- The rows as they are drawn. -/
def rowLines (s : Screen) : String :=
  if s.visible.isEmpty then "  no matching instructions\n"
  else String.join (s.shownRows.map fun (r, isSelected) =>
    (if isSelected then "> " else "  ") ++ rowText r ++ "\n")

/-- The line of the filter. -/
def filterLine (s : Screen) : String :=
  if s.filter.chars.isEmpty then "/ filter\n" else "/ " ++ s.filter.window ++ "\n"

/-- The line on top. -/
def titleLine (s : Screen) (out : Program.Output) : String :=
  " druta  " ++ s.name ++ "  " ++ toString out.stats.instructions ++ " instructions, " ++
    toString out.stats.asyncCalls ++ " async, " ++ toString out.locals.length ++ " locals\n"

/-- The screen as text. -/
def view (s : Screen) : String :=
  match s.failure, s.output with
  | some e, _ => draw ("Error: " ++ e.message ++ "\n\nPress q to quit.")
  | none, none => "Compiling..."
  | none, some out =>
      s.titleLine out ++ "\n" ++
        if s.showsSource then draw out.source ++ "\n\ns instructions • q quit"
        else s.rowLines ++ "\n" ++
          (if s.filtering || !s.filter.chars.isEmpty then s.filterLine else "") ++
          "↑/↓ select • / filter • esc clear • s source • q quit"

end Screen

end Resumable.Browser
