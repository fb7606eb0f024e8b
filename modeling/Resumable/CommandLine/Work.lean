/-
  Resumable.CommandLine.Work — a compiler at work in a command.

  Every compilation passes the cache, if one is used, and leaves it as a file again.
-/
import Resumable.Cache.File
import Resumable.CommandLine.Host
import Resumable.Compiler

namespace Resumable.CommandLine

variable {m : Type → Type} [Monad m]

/-- A compiler with its cache. -/
structure Work where
  compiler : Compiler
  /-- The path of the cache; empty for none. -/
  cachePath : String := ""
  store : Cache.Store := {}

/-- The path of a cache that is gone when the command ends. -/
def fleeting : String := ":memory:"

namespace Work

/-- Opens the cache at a path. -/
def openStore (h : Host m) (path : String) : ExceptT Failure m Cache.Store := do
  if path.isEmpty || path == fleeting then return {}
  else match ← h.read path with
    | some bytes => Cache.Store.ofBytes bytes
    | none =>
        if ← h.write path [] then return {} else throw Cache.Store.unopened

/-- Compiles a document. -/
def compile (w : Work) (h : Host m) (document : Bytes) :
    m (Except Failure Program.Output × Work) := do
  let cache := if w.cachePath.isEmpty then none else some Cache.Store.access
  let (out, log, store) := w.compiler.compile cache false document w.store
  h.note log
  if !w.cachePath.isEmpty && w.cachePath != fleeting then
    let _ ← h.write w.cachePath store.toBytes
  return (out, { w with store })

end Work

end Resumable.CommandLine
