/-
  Resumable.CommandLine.Execute — the command.

  Settings are loaded and changed by the flags; then a conversation is held, or a document is
  compiled and shown, written or browsed.
-/
import Resumable.Browser.Screen
import Resumable.CommandLine.Conversation
import Resumable.CommandLine.Flags
import Resumable.Output.Format
import Resumable.Settings.Files

namespace Resumable.CommandLine

variable {m : Type → Type} [Monad m]

/-! ## §1. Settings. -/

/-- The first path that leads to something. -/
def firstThere (h : Host m) : List String → m (Option String)
  | [] => return none
  | path :: rest => do
      if ← h.isThere path then return some path else firstThere h rest

/-- The settings of a given file, or of the nearest one, or the usual ones. -/
def loadSettings (h : Host m) (path : String) : ExceptT Failure m Settings := do
  let here ← h.here
  let load (path : String) : ExceptT Failure m Settings := do
    return (← Settings.ofFile here path (← h.read path)).settings
  if !path.isEmpty then load path
  else match ← liftM (firstThere h (Settings.candidates here ".")) with
    | some path => load path
    | none => return .usual

/-- Settings changed by flags. -/
def Flags.change (f : Flags) (s : Settings) : Settings :=
  let s := { s with
    format := if f.format.isEmpty then s.format else f.format
    cachePath := if f.cache.isEmpty then s.cachePath else f.cache }
  if f.verbose then { s with development := true, level := Level.debug.name } else s

/-! ## §2. Documents. -/

/-- The document to compile and its name. -/
def readInput (h : Host m) (path : String) : ExceptT Failure m (Bytes × String) := do
  if path.isEmpty || path == "-" then return (← h.input, "<stdin>")
  else match ← h.read path with
    | some bytes => return (bytes, path)
    | none => throw (.within "read file" .external)

/-- The report on a file that was written. -/
def report (path : String) (size : Nat) (s : Program.Stats) : String :=
  path ++ ": " ++ Output.sizeText size ++ " (" ++ toString s.instructions ++ " instructions, " ++
    toString s.asyncCalls ++ " async)"

/-- Compiles a document and shows it, or writes it to a file. -/
def compileTo (h : Host m) (work : Work) (document : Bytes) (format output : String) :
    ExceptT Failure m Unit := do
  let (out, _) ← liftM (work.compile h document)
  let out ← out
  let bytes ← Output.writeNamed out format
  if output.isEmpty then h.say bytes
  else if ← h.write output bytes then
    h.note [{ level := .info, message := "wrote output"
              fields := [("file", .text output), ("format", .text format),
                         ("instructions", .number out.stats.instructions)] }]
    h.warn (report output bytes.length out.stats)
  else throw (.within "write output" .external)

/-- Browses the code of a document; each line of input is a key. -/
def browse (h : Host m) (work : Work) (name : String) (document : Bytes) : m Unit := do
  let (out, _) ← work.compile h document
  let draw (s : Browser.Screen) : m Unit := Conversation.say h (s.view ++ "\n")
  let screen := (Browser.Screen.update { name } (.compiled out)).1
  draw screen
  let step (line : Bytes) (s : Browser.Screen) : m (Browser.Screen × Bool) := do
    let key := (Text.textOf? line).getD ""
    let (s, stopped) := s.update (.key { name := key, typed := key.toList })
    if !stopped then draw s
    return (s, stopped)
  let _ ← h.eachLine step screen

/-! ## §3. The command. -/

/-- What flags ask for. -/
def perform (h : Host m) (f : Flags) : ExceptT Failure m Unit := do
  let settings := f.change (← loadSettings h f.settings)
  settings.validate
  let _ ← settings.leastLevel
  let store ← Work.openStore h settings.cachePath
  let compiler ← Compiler.ofSettings settings
  let work : Work := { compiler, cachePath := settings.cachePath, store }
  if f.converse then
    liftM (Conversation.hold h work ((Output.Format.ofName? settings.format).getD .tree))
  else
    let (document, name) ← readInput h f.input
    if f.browse then liftM (browse h work name document)
    else compileTo h work document settings.format f.output

/-- How a command ended. -/
inductive Outcome where
  | refused (why : Refusal)
  | ended (result : Except Failure Unit)

/-- Runs the command on arguments. -/
def execute (h : Host m) (args : List String) : m Outcome := do
  match Flags.parse args {} with
  | .error why => return .refused why
  | .ok f => return .ended (← (perform h f).run)

end Resumable.CommandLine
