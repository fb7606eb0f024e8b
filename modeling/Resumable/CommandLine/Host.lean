/-
  Resumable.CommandLine.Host — what a command needs from its surroundings.

  A command is written against a host, in any monad: a real one acts on files and streams, and a
  `Desk` holds files and standard input as values, so that a run is a function.
-/
import Resumable.Files.Tree
import Resumable.Log
import Resumable.Text.Lines

namespace Resumable.CommandLine

open Files

/-- The surroundings of a command. -/
structure Host (m : Type → Type) where
  /-- The working directory. -/
  here : m Place
  /-- The directory of the user. -/
  home : m Place
  /-- Whether a path leads to something. -/
  isThere : (path : String) → m Bool
  /-- The content of a file. -/
  read : (path : String) → m (Option Bytes)
  /-- Writes a file; whether it could be written. -/
  write : (path : String) → Bytes → m Bool
  /-- Everything on standard input. -/
  input : m Bytes
  /-- Goes through the lines of standard input until a step asks to stop; whether one did. -/
  eachLine : {σ : Type} → (Bytes → σ → m (σ × Bool)) → σ → m (σ × Bool)
  /-- Writes to standard output. -/
  say : Bytes → m Unit
  /-- Writes a line for the user beside the output. -/
  warn : String → m Unit
  /-- Takes remarks for the log. -/
  note : List Log.Entry → m Unit

/-- Files, standard input and what was written, as values. -/
structure Desk where
  files : Tree := {}
  here : Place := []
  home : Place := []
  /-- What is left on standard input. -/
  input : Bytes := []
  /-- What was written to standard output. -/
  said : Bytes := []
  /-- What was written beside it. -/
  warned : List String := []
  deriving Inhabited

namespace Desk

/-- Goes through lines until a step asks to stop. -/
def throughLines {σ : Type} (step : Bytes → σ → StateM Desk (σ × Bool)) :
    List (Bytes × Bool) → σ → StateM Desk (σ × Bool)
  | [], s => return (s, false)
  | (line, _) :: rest, s => do
      let (s, stopped) ← step line s
      if stopped then return (s, true) else throughLines step rest s

/-- A desk as a host. -/
def host : Host (StateM Desk) where
  here := do return (← get).here
  home := do return (← get).home
  isThere path := do
    let d ← get
    return d.files.isThere d.here path
  read path := do
    let d ← get
    return d.files.read? d.here path
  write path bytes := do
    let d ← get
    match d.files.write? d.here path bytes with
    | some files => set { d with files }; return true
    | none => return false
  input := do
    let d ← get
    set { d with input := [] }
    return d.input
  eachLine step s := do
    let d ← get
    set { d with input := [] }
    throughLines step (Text.linesOf d.input) s
  say bytes := modify fun d => { d with said := d.said ++ bytes }
  warn line := modify fun d => { d with warned := d.warned ++ [line] }
  note _ := pure ()

end Desk

end Resumable.CommandLine
