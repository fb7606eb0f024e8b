/-
  Resumable.Compiler — compiling documents, with a cache in between.

  A compiler is what settings come down to.  It looks a document up before it compiles it, and
  stores what it compiled; a cache that fails is remarked upon and otherwise ignored.  A cache is
  given by what looking up and storing do to a state of its own, so that any cache fits.
-/
import Resumable.Cache.Store
import Resumable.Output.Format
import Resumable.Settings.Basic
import Resumable.Tree.Document

namespace Resumable

open Program (Output Stats)

/-- A cache with states of a type. -/
structure Cache.Access (σ : Type) where
  /-- Looks up a key, with whether the request was cancelled. -/
  get : (cancelled : Bool) → (key : String) → σ →
    Except Failure (Option Cache.Entry) × List Log.Entry × σ
  /-- Stores an entry. -/
  put : (cancelled : Bool) → (key : String) → Cache.Entry → σ →
    Except Failure Unit × List Log.Entry × σ

/-- A store as a cache. -/
def Cache.Store.access : Cache.Access Cache.Store where
  get cancelled key s :=
    let (found, log) := s.get cancelled key
    (found, log, s)
  put cancelled key e s := s.put cancelled key (some e)

/-- What settings come down to. -/
structure Compiler where
  naming : Program.Naming
  isAsync : String → Bool
  fingerprint : String

namespace Compiler

/-- The compiler of settings. -/
def ofSettings (s : Settings) : Except Failure Compiler := do
  let convention ← s.convention
  return { naming := s.naming, isAsync := convention.isAsync, fingerprint := s.fingerprint }

/-! ## §1. Compiling. -/

/-- Figures of code that was not transformed here; the number of temps is not known. -/
def statsOf (code : Code) (locals : List String) : Stats :=
  let calls := code.all.filter (fun o => o.command == "call")
  { calls := calls.length
    asyncCalls := (calls.filter Op.suspends).length
    instructions := code.count
    locals := locals.length }

/-- The output an entry of a cache stands for. -/
def cached (e : Cache.Entry) : Output :=
  let locals := e.locals.getD []
  { source := e.source, code := e.code, locals, stats := statsOf e.code locals }

/-- Compiles a unit. -/
def compileUnit (c : Compiler) (unit : Node) : Except Failure Output × List Log.Entry :=
  Program.compile { naming := c.naming, isAsync := c.isAsync } unit

/-- Compiles a document, without a cache. -/
def compileDocument (c : Compiler) (document : Bytes) : Except Failure Output × List Log.Entry :=
  match Node.parseUnit document with
  | .error e => (.error e, [])
  | .ok unit => c.compileUnit unit

/-- A remark on a cache that failed. -/
def warning (message : String) (e : Failure) : Log.Entry :=
  { level := .warn, message, fields := [("error", .text e.message)] }

/-- The remark on an output taken from the cache. -/
def hit (key : String) : Log.Entry :=
  { level := .debug, message := "compile cache hit", fields := [("key", .text key)] }

/-- Compiles a document and stores what it gives, behind the remarks `log`. -/
def compileAndStore {σ : Type} (c : Compiler) (cache : Cache.Access σ) (cancelled : Bool)
    (document : Bytes) (log : List Log.Entry) (s : σ) :
    Except Failure Output × List Log.Entry × σ :=
  match c.compileDocument document with
  | (.error e, more) => (.error e, log ++ more, s)
  | (.ok out, more) =>
      let entry : Cache.Entry :=
        { source := out.source, code := out.code, locals := some out.locals }
      let (stored, storing, s) := cache.put cancelled (Cache.key c.fingerprint document) entry s
      let rest := match stored with
        | .ok () => []
        | .error e => [warning "cache store failed" e]
      (.ok out, log ++ more ++ storing ++ rest, s)

/-- Compiles a document, unless the cache has it. -/
def compileCached {σ : Type} (c : Compiler) (cache : Cache.Access σ) (cancelled : Bool)
    (document : Bytes) (s : σ) : Except Failure Output × List Log.Entry × σ :=
  let key := Cache.key c.fingerprint document
  match cache.get cancelled key s with
  | (.ok (some e), log, s) => (.ok (cached e), log ++ [hit key], s)
  | (.ok none, log, s) => c.compileAndStore cache cancelled document log s
  | (.error e, log, s) =>
      c.compileAndStore cache cancelled document (log ++ [warning "cache lookup failed" e]) s

/-- Compiles a document, with or without a cache. -/
def compile {σ : Type} (c : Compiler) (cache : Option (Cache.Access σ)) (cancelled : Bool)
    (document : Bytes) (s : σ) : Except Failure Output × List Log.Entry × σ :=
  match cache with
  | some cache => c.compileCached cache cancelled document s
  | none =>
      let (out, log) := c.compileDocument document
      (out, log, s)

/-! ## §2. Running. -/

/-- What can be run. -/
inductive Input where
  /-- A document, as bytes or as a text. -/
  | document (bytes : Bytes)
  /-- A unit; `absent` for none. -/
  | unit (tree : Node)
  /-- A compiled unit, or none. -/
  | output (out : Option Output)
  /-- Executable code. -/
  | code (code : Code)
  /-- Anything else. -/
  | other (value : Option Offender)

/-- Executes code. -/
abbrev Runtime := Code → Except Failure Unit

/-- What a run came to. -/
structure Run where
  /-- The code the runtime was given, if it was given any. -/
  handed : Option Code := none
  result : Except Failure Unit

/-- The code of an input. -/
def codeOf {σ : Type} (c : Compiler) (cache : Option (Cache.Access σ)) (cancelled : Bool)
    (input : Input) (s : σ) : Except Failure Code × List Log.Entry × σ :=
  match input with
  | .document bytes =>
      let (out, log, s) := c.compile cache cancelled bytes s
      (out.map (·.code), log, s)
  | .unit tree =>
      let (out, log) := c.compileUnit tree
      (out.map (·.code), log, s)
  | .output none => (.error (.invalidInput .runtime "nil output"), [], s)
  | .output (some out) => (.ok out.code, [], s)
  | .code code => (.ok code, [], s)
  | .other value =>
      (.error (.only { phase := .runtime, category := .invalidInput, value
                       detail := "input must be a tree document, a tree, compiled output " ++
                         "or executable code" }), [], s)

/-- Hands the code of an input to a runtime, unless the request was cancelled. -/
def run {σ : Type} (c : Compiler) (cache : Option (Cache.Access σ)) (cancelled : Bool)
    (input : Input) (runtime : Option Runtime) (s : σ) : Run × List Log.Entry × σ :=
  match runtime with
  | none => ({ result := .error (.notInitialized .runtime "runtime") }, [], s)
  | some execute =>
      match c.codeOf cache cancelled input s with
      | (.error e, log, s) => ({ result := .error e }, log, s)
      | (.ok code, log, s) =>
          if cancelled then ({ result := .error .canceled }, log, s)
          else
            let executing : Log.Entry :=
              { level := .debug, message := "executing"
                fields := [("instructions", .number code.count)] }
            ({ handed := some code, result := execute code }, log ++ [executing], s)

end Compiler

end Resumable
