/-
  Resumable.Program.Compile — from a unit to source text and executable code.
-/
import Resumable.Program.Serialize
import Resumable.Program.Transform

namespace Resumable.Program

/-- How a unit is compiled. -/
structure Options where
  naming : Naming := {}
  /-- Whether a name stands for something that may suspend. -/
  isAsync : String → Bool
  /-- Turns the resulting tree into text. -/
  source : Renderer := Source.render {}
  /-- Turns payloads into text. -/
  payload : Renderer := Source.render .oneLine

/-- A compiled unit. -/
structure Output where
  source : String
  code : Code
  locals : List String
  stats : Stats
  deriving Repr

/-- The text and the code of a transformed unit. -/
def Transformed.output (t : Transformed) (o : Options) : Except Failure Output := do
  let code ← toCode o.payload t.program
  let source ← o.source t.tree
  return { source, code, locals := t.locals, stats := t.stats }

/-- The entry that closes the log of a compilation. -/
def Output.entry (o : Output) : Log.Entry :=
  { level := .debug, message := "compiled"
    fields := [("instructions", .number o.stats.instructions),
               ("async_calls", .number o.stats.asyncCalls),
               ("source_bytes", .number o.source.utf8ByteSize)] }

/-- Compiles a unit; the log is there even if the compilation fails. -/
def compile (o : Options) (unit : Node) : Except Failure Output × List Log.Entry :=
  let (transformed, log) := transform o.naming o.isAsync unit
  match transformed >>= (·.output o) with
  | .error e => (.error e, log)
  | .ok out => (.ok out, log ++ [out.entry])

end Resumable.Program
