/-
  Resumable.Tree.Node — syntax trees.

  One inductive type holds expressions and statements alike, because a tree built by hand may
  put either kind anywhere; the passes report a misplaced node instead of assuming there is
  none.  For the same reason an operand may be missing: `Node.absent` marks the empty position.
  Reading a document leaves a position empty only where the language allows it.
-/
import Resumable.Tree.Kind

namespace Resumable

/-- On which side of its operand a unary operator stands. -/
inductive Side where
  | before
  | after
  deriving DecidableEq, Repr, Inhabited

/-- A syntax tree, or the empty position `absent`. -/
inductive Node where
  /-- No node: an operand that was left out. -/
  | absent
  /-- An identifier reference. -/
  | name (id : String)
  /-- A numeric literal in its source spelling. -/
  | num (text : String)
  /-- A string literal, holding the value without quotes. -/
  | string (value : String)
  /-- A keyword literal such as `true` or `null`. -/
  | atom (word : String)
  | regexp (pattern flags : String)
  | array (elements : List Node)
  | object (props : List (String × Node))
  | call (callee : Node) (args : List Node)
  | new (callee : Node) (args : List Node)
  | binary (op : String) (left right : Node)
  | unary (side : Side) (op : String) (operand : Node)
  /-- An assignment; `op` is empty for a plain one and `"+"` for `+=`. -/
  | assign (op : String) (target value : Node)
  | dot (base : Node) (field : String)
  | sub (base index : Node)
  | conditional (test yes no : Node)
  | seq (exprs : List Node)
  | function (name : String) (params : List String) (body : List Node)
  | stat (expr : Node)
  | var (defs : List (String × Node))
  | const (defs : List (String × Node))
  | block (body : List Node)
  | ifElse (cond yes no : Node)
  | forLoop (init cond step body : Node)
  | forIn (init object body : Node)
  | whileLoop (cond body : Node)
  | doLoop (cond body : Node)
  | breakTo (label : String)
  | continueTo (label : String)
  | debugger
  | label (label : String) (body : Node)
  | ret (value : Node)
  | throw (value : Node)
  /-- A try statement; an absent `finally` differs from an empty one. -/
  | tryCatch (body : List Node) (handler : Option (String × List Node))
      (finalizer : Option (List Node))
  /-- A switch statement; a clause with an absent test is the default clause. -/
  | switch (disc : Node) (cases : List (Node × List Node))
  | withObject (object body : Node)
  | defun (name : String) (params : List String) (body : List Node)
  | toplevel (body : List Node)
  | splice (nodes : List Node)
  deriving Repr, BEq, Inhabited

namespace Node

/-- The kind of a node; an empty position has none. -/
def kind? : Node → Option Kind
  | absent => none
  | name _ => some .name
  | num _ => some .num
  | string _ => some .string
  | atom _ => some .atom
  | regexp _ _ => some .regexp
  | array _ => some .array
  | object _ => some .object
  | call _ _ => some .call
  | new _ _ => some .new
  | binary _ _ _ => some .binary
  | unary .before _ _ => some .unaryBefore
  | unary .after _ _ => some .unaryAfter
  | assign _ _ _ => some .assign
  | dot _ _ => some .dot
  | sub _ _ => some .sub
  | conditional _ _ _ => some .conditional
  | seq _ => some .seq
  | function _ _ _ => some .function
  | stat _ => some .stat
  | var _ => some .var
  | const _ => some .const
  | block _ => some .block
  | ifElse _ _ _ => some .ifElse
  | forLoop _ _ _ _ => some .forLoop
  | forIn _ _ _ => some .forIn
  | whileLoop _ _ => some .whileLoop
  | doLoop _ _ => some .doLoop
  | breakTo _ => some .breakTo
  | continueTo _ => some .continueTo
  | debugger => some .debugger
  | label _ _ => some .label
  | ret _ => some .ret
  | throw _ => some .throw
  | tryCatch _ _ _ => some .tryCatch
  | switch _ _ => some .switch
  | withObject _ _ => some .withObject
  | defun _ _ _ => some .defun
  | toplevel _ => some .toplevel
  | splice _ => some .splice

/-- How a failure names the node: its tag, or `nil` for an empty position. -/
def tag (n : Node) : String :=
  match n.kind? with
  | some k => k.tag
  | none => "nil"

/-- Whether the position is empty. -/
def isAbsent : Node → Bool
  | absent => true
  | _ => false

/-- Whether the node produces a value. -/
def isExpression (n : Node) : Bool :=
  n.kind?.any Kind.isExpression

/-- A plain assignment as a statement. -/
def setTo (target value : Node) : Node :=
  stat (assign "" target value)

/-- The keyword literal `null`. -/
def null : Node := atom "null"

@[simp] theorem kind?_eq_none (n : Node) : n.kind? = none ↔ n = absent := by
  cases n with
  | unary side _ _ => cases side <;> simp [kind?]
  | _ => simp [kind?]

theorem isAbsent_eq_isNone (n : Node) : n.isAbsent = n.kind?.isNone := by
  cases n with
  | unary side _ _ => cases side <;> rfl
  | _ => rfl

theorem isAbsent_of_isExpression {n : Node} (h : n.isExpression = true) : n.isAbsent = false := by
  cases n with
  | absent => cases h
  | _ => rfl

theorem isAbsent_eq_true_iff {n : Node} : n.isAbsent = true ↔ n = absent := by
  rw [isAbsent_eq_isNone, Option.isNone_iff_eq_none, kind?_eq_none]

end Node

end Resumable
