/-
  Resumable.Failure — what can go wrong, and how it reads.

  A failure is either a structured report, with the phase it arose in, its category, the place in
  the input and a cause, or one of a few plain forms.  Texts that lower layers produce (a
  malformed document, an unreadable file) are not this library's own: all of them are the one
  failure `external`.  The wording of every failure is the single function `Failure.message`.
-/
import Resumable.Text.Quoted

namespace Resumable

/-! ## §1. Vocabulary. -/

/-- The stage of the work a failure arose in. -/
structure Phase where
  text : String
  deriving DecidableEq, Repr, Inhabited

namespace Phase

/-- Reading a tree document. -/
def parse : Phase := ⟨"parse"⟩

/-- Splitting calls out of a tree. -/
def transform : Phase := ⟨"transform"⟩

/-- Turning instructions into executable code. -/
def serialize : Phase := ⟨"serialize"⟩

/-- Turning a node into source text. -/
def render : Phase := ⟨"render"⟩

/-- Loading settings. -/
def config : Phase := ⟨"config"⟩

/-- Using the compile cache. -/
def cache : Phase := ⟨"cache"⟩

/-- Handing code to a runtime. -/
def runtime : Phase := ⟨"runtime"⟩

end Phase

/-- The category of a failure. -/
structure Category where
  text : String
  deriving DecidableEq, Repr, Inhabited

namespace Category

/-- A node with malformed operands. -/
def invalidNode : Category := ⟨"invalid_node"⟩

/-- A node kind that cannot stand where it stands. -/
def unknownNode : Category := ⟨"unknown_node"⟩

/-- An assignment to something that cannot be assigned. -/
def invalidTarget : Category := ⟨"invalid_target"⟩

/-- An operation that is not offered. -/
def unsupported : Category := ⟨"unsupported"⟩

/-- An argument that cannot be used. -/
def invalidInput : Category := ⟨"invalid_input"⟩

/-- Data that breaks a rule. -/
def invalidData : Category := ⟨"invalid_data"⟩

/-- Something that is not there. -/
def notFound : Category := ⟨"not_found"⟩

/-- A collaborator that was not supplied. -/
def notInitialized : Category := ⟨"not_initialized"⟩

/-- A value that could not be written. -/
def encode : Category := ⟨"encode"⟩

/-- A text that could not be read. -/
def decode : Category := ⟨"decode"⟩

end Category

/-- An offending value a report may carry. -/
inductive Offender where
  | text (value : String)
  | number (value : Int)
  deriving DecidableEq, Repr

/-- The fields of a structured failure, apart from its cause. -/
structure Report where
  phase : Phase
  category : Category
  path : List String := []
  node : String := ""
  detail : String := ""
  value : Option Offender := none
  deriving DecidableEq, Repr, Inhabited

/-- A failure. -/
inductive Failure where
  /-- A structured failure with an optional cause. -/
  | report (fields : Report) (cause : Option Failure)
  /-- A failure of a lower layer, whose text is not shown. -/
  | external
  /-- A failure that is only a text. -/
  | plain (text : String)
  /-- A failure that arose inside something named by a text. -/
  | within (context : String) (inner : Failure)
  /-- The request was cancelled before it was served. -/
  | canceled
  /-- No answer: the work goes on for ever.  Nothing that runs ever hands this over. -/
  | endless
  deriving Repr, Inhabited

/-! ## §2. Wording. -/

/-- The text of a report without its cause: phase and category, the path, the node and the
    detail, each only if it is there. -/
def Report.message (r : Report) : String :=
  let place := if r.path.isEmpty then "" else " at " ++ "/".intercalate r.path
  let node := if r.node.isEmpty then "" else ": node " ++ r.node
  let detail :=
    if r.detail.isEmpty then ""
    else (if r.node.isEmpty then ": " else " - ") ++ r.detail
  "[" ++ r.phase.text ++ "] " ++ r.category.text ++ place ++ node ++ detail

namespace Failure

/-- The text of a failure, causes included. -/
def message : Failure → String
  | report r none => r.message
  | report r (some c) => r.message ++ " (caused by: " ++ c.message ++ ")"
  | external => "<external>"
  | plain s => s
  | within context inner => context ++ ": " ++ inner.message
  | canceled => "context canceled"
  | endless => ""

/-- What a failure was caused by. -/
def cause? : Failure → Option Failure
  | report _ c => c
  | within _ inner => some inner
  | _ => none

/-- The first report on the way from a failure to its root. -/
def report? : Failure → Option Report
  | report r _ => some r
  | within _ inner => inner.report?
  | _ => none

/-- Whether a failure or something that caused it has the given phase and category. -/
def isA (phase : Phase) (category : Category) : Failure → Bool
  | report r none => r.phase == phase && r.category == category
  | report r (some c) => (r.phase == phase && r.category == category) || c.isA phase category
  | within _ inner => inner.isA phase category
  | _ => false

/-! ## §3. The usual reports. -/

/-- A report with no cause. -/
def only (r : Report) : Failure := report r none

/-- A node kind outside the set that is handled at its place. -/
def unknownNode (phase : Phase) (path : List String) (node : String) : Failure :=
  only { phase, category := .unknownNode, path, node, detail := "unrecognized node kind" }

/-- A node with malformed operands. -/
def invalidNode (phase : Phase) (path : List String) (node detail : String) : Failure :=
  only { phase, category := .invalidNode, path, node, detail }

/-- An assignment target that cannot be split. -/
def invalidTarget (path : List String) (node : String) : Failure :=
  only { phase := .transform, category := .invalidTarget, path, node
         detail := "assignment target must be a name, dot or sub expression" }

/-- An operation that is not offered. -/
def unsupported (phase : Phase) (what : String) : Failure :=
  only { phase, category := .unsupported, detail := what }

/-- An argument that cannot be used. -/
def invalidInput (phase : Phase) (detail : String) : Failure :=
  only { phase, category := .invalidInput, detail }

/-- Data that breaks a rule. -/
def invalidData (phase : Phase) (path : List String) (detail : String) : Failure :=
  only { phase, category := .invalidData, path, detail }

/-- A failure with a cause and a word on what was being done. -/
def wrap (phase : Phase) (category : Category) (cause : Option Failure) (detail : String) :
    Failure :=
  report { phase, category, detail } cause

/-- A document that could not be read. -/
def parseFailed (what : String) (cause : Option Failure) : Failure :=
  wrap .parse .decode cause ("parse " ++ what)

/-- A collaborator that was not supplied. -/
def notInitialized (phase : Phase) (component : String) : Failure :=
  only { phase, category := .notInitialized, detail := component ++ " not initialized" }

/-- Something looked up by name that is not there. -/
def notFound (phase : Phase) (what name : String) : Failure :=
  only { phase, category := .notFound, detail := what ++ " " ++ Text.quoted name ++ " not found" }

end Failure

end Resumable
