/-
  Resumable.Tree.Kind — the closed set of node kinds.

  Every node of a tree document carries a tag.  The tags form a closed set, split into the
  value-producing kinds and the statement kinds; a tag also fixes how many operands may follow
  it.  `Kind.ofTag?` is the only way from text to a kind, so a document can never introduce a
  kind the later passes do not know.
-/
namespace Resumable

/-! ## §1. Kinds and their tags. -/

/-- The kind of a tree node. -/
inductive Kind where
  | name | num | string | atom | regexp | array | object | call | new | binary
  | unaryBefore | unaryAfter | assign | dot | sub | conditional | seq | function
  | stat | var | const | block | ifElse | forLoop | forIn | whileLoop | doLoop
  | breakTo | continueTo | debugger | label | ret | throw | tryCatch | switch
  | withObject | defun | toplevel
  /-- Siblings that belong inline in the enclosing statement list. -/
  | splice
  deriving DecidableEq, Repr, Inhabited

namespace Kind

/-- The tag that stands for the kind in a document. -/
def tag : Kind → String
  | name => "name"
  | num => "num"
  | string => "string"
  | atom => "atom"
  | regexp => "regexp"
  | array => "array"
  | object => "object"
  | call => "call"
  | new => "new"
  | binary => "binary"
  | unaryBefore => "unary-prefix"
  | unaryAfter => "unary-postfix"
  | assign => "assign"
  | dot => "dot"
  | sub => "sub"
  | conditional => "conditional"
  | seq => "seq"
  | function => "function"
  | stat => "stat"
  | var => "var"
  | const => "const"
  | block => "block"
  | ifElse => "if"
  | forLoop => "for"
  | forIn => "for-in"
  | whileLoop => "while"
  | doLoop => "do"
  | breakTo => "break"
  | continueTo => "continue"
  | debugger => "debugger"
  | label => "label"
  | ret => "return"
  | throw => "throw"
  | tryCatch => "try"
  | switch => "switch"
  | withObject => "with"
  | defun => "defun"
  | toplevel => "toplevel"
  | splice => "splice"

/-- Every kind, expressions first. -/
def all : List Kind :=
  [name, num, string, atom, regexp, array, object, call, new, binary,
   unaryBefore, unaryAfter, assign, dot, sub, conditional, seq, function,
   stat, var, const, block, ifElse, forLoop, forIn, whileLoop, doLoop,
   breakTo, continueTo, debugger, label, ret, throw, tryCatch, switch,
   withObject, defun, toplevel, splice]

/-- The kind a tag stands for, if it is one of the known tags. -/
def ofTag? (text : String) : Option Kind :=
  all.find? (fun k => k.tag == text)

/-! ## §2. Sorts and operand counts. -/

/-- Whether nodes of the kind produce a value. -/
def isExpression : Kind → Bool
  | name | num | string | atom | regexp | array | object | call | new | binary
  | unaryBefore | unaryAfter | assign | dot | sub | conditional | seq | function => true
  | _ => false

/-- How many operands may follow the tag: the least number, and the greatest one if there is
    a greatest. -/
def arity : Kind → Nat × Option Nat
  | name | num | string | atom | array | object | stat | var | const | throw
  | toplevel | splice => (1, some 1)
  | regexp | new => (1, some 2)
  | call | unaryBefore | unaryAfter | dot | sub | whileLoop | doLoop | label | switch
  | withObject => (2, some 2)
  | binary | assign | conditional | function | defun => (3, some 3)
  | seq => (1, none)
  | block | breakTo | continueTo | ret => (0, some 1)
  | ifElse => (2, some 3)
  | forLoop => (4, some 4)
  | forIn => (3, some 4)
  | debugger => (0, some 0)
  | tryCatch => (1, some 3)

/-- Whether `count` operands may follow the tag. -/
def accepts (k : Kind) (count : Nat) : Bool :=
  k.arity.1 ≤ count && k.arity.2.all (count ≤ ·)

/-- A tag names its own kind. -/
theorem ofTag?_tag (k : Kind) : ofTag? k.tag = some k := by
  cases k <;> rfl

end Kind

end Resumable
