/-
  Resumable.Main — the command on a real machine.
-/
import Resumable.CommandLine.Execute

namespace Resumable.CommandLine

/-- The result of an action, unless it fails. -/
def attempt? {α : Type} (action : IO α) : IO (Option α) := do
  try return some (← action) catch _ => return none

/-- What is left of a stream, behind what was read of it. -/
partial def drain (stream : IO.FS.Stream) (read : ByteArray) : IO ByteArray := do
  let more ← stream.read 65536
  if more.isEmpty then return read else drain stream (read ++ more)

/-- Goes through the lines of standard input until a step asks to stop. -/
partial def throughInput {σ : Type} (step : Bytes → σ → IO (σ × Bool)) (s : σ) :
    IO (σ × Bool) := do
  let line ← (← IO.getStdin).getLine
  if line.isEmpty then return (s, false)
  let rec pieces (s : σ) : List (Bytes × Bool) → IO (σ × Bool)
    | [] => return (s, false)
    | (piece, _) :: rest => do
        let (s, stopped) ← step piece s
        if stopped then return (s, true) else pieces s rest
  let (s, stopped) ← pieces s (Text.linesOf (Text.bytesOf line))
  if stopped then return (s, true) else throughInput step s

/-- Files and streams as a host. -/
def machine : Host IO where
  here := do return Files.follow [] (← IO.currentDir).toString
  home := do return Files.follow [] ((← IO.getEnv "HOME").getD "")
  isThere path := do
    let found ← attempt? (IO.FS.Handle.mk path .read)
    return found.isSome
  read path := do return (← attempt? (IO.FS.readBinFile path)).map (·.toList)
  write path bytes := do
    return (← attempt? (IO.FS.writeBinFile path ⟨bytes.toArray⟩)).isSome
  input := do return (← drain (← IO.getStdin) .empty).toList
  eachLine := throughInput
  say bytes := do
    let out ← IO.getStdout
    out.write ⟨bytes.toArray⟩
    out.flush
  warn line := IO.eprintln line
  note _ := pure ()

end Resumable.CommandLine

open Resumable.CommandLine in
/-- Runs the command and answers how it ended. -/
def main (args : List String) : IO UInt32 := do
  match ← execute machine args with
  | .refused .help => return 0
  | .refused .usage => return 1
  | .ended (.ok ()) => return 0
  | .ended (.error e) =>
      IO.eprintln ("Error: " ++ e.message)
      return 1
