/-
  Resumable.Source.Printer — syntax trees as source text.

  `form` lays out a node as it reads on its own; what a place adds is put around it by the
  combinators of §1: parentheses in an expression place, a semicolon in a statement place.  They
  also reject a node that cannot stand in the place.  Splices dissolve into the list they stand
  in.  `Renderer` is what the later passes see: any function from nodes to text that may fail.
-/
import Resumable.Failure
import Resumable.Source.Layout
import Resumable.Source.Literal
import Resumable.Source.Precedence

namespace Resumable.Source

open Layout (ofText)

/-! ## §1. What a place adds. -/

/-- A node as an operand: it has to be an expression, and gets parentheses if it binds looser
    than `least`. -/
def asOperand (least : Nat) (n : Node) (form : Except Failure Layout) :
    Except Failure Layout :=
  if n.isExpression then do
    let l ← form
    return if Precedence.ofNode n < least then l.parens else l
  else
    .error (.invalidNode .render [] n.tag "not an expression")

/-- A node as a statement: expressions and declarations get a semicolon. -/
def asStatement (n : Node) (form : Except Failure Layout) : Except Failure Layout :=
  match n with
  | .absent => .error (.invalidNode .render [] n.tag "not a statement")
  | .var _ | .const _ => do return (← form) ++ ofText ";"
  | _ => if n.isExpression then do return (← form) ++ ofText ";" else form

/-- The first part of a loop header: nothing, a declaration or an expression. -/
def asHeader (n : Node) (form : Except Failure Layout) : Except Failure Layout :=
  match n with
  | .absent => .ok []
  | .var _ => form
  | _ => asOperand Precedence.lowest n form

/-- An operand that may be left out. -/
def asOptional (n : Node) (form : Except Failure Layout) : Except Failure Layout :=
  match n with
  | .absent => .ok []
  | _ => asOperand Precedence.lowest n form

/-- A jump statement with an optional label. -/
def jump (word label : String) : Layout :=
  if label.isEmpty then ofText (word ++ ";") else ofText (word ++ " " ++ label ++ ";")

/-- Whether an operator is a word, which a space has to follow. -/
def isWord (op : String) : Bool :=
  op == "typeof" || op == "void" || op == "delete"

/-- Whether an operator in front of an operand would run together with its first character. -/
def fuses (op : String) (operand : Layout) : Bool :=
  ((op == "-" || op == "--") && operand.startsWith '-') ||
    ((op == "+" || op == "++") && operand.startsWith '+')

/-- The head of a function up to its body. -/
def functionHead (name : String) (params : List String) : Layout :=
  ofText ("function" ++ (if name.isEmpty then "" else " " ++ name) ++
    "(" ++ ", ".intercalate params ++ ") ")

/-- Whether a statement is an `if` without an `else`, which would capture one that follows. -/
def capturesElse : Node → Bool
  | .ifElse _ _ .absent => true
  | _ => false

/-- Whether a callee has to be in parentheses whatever its precedence. -/
def isFunction : Node → Bool
  | .function _ _ _ => true
  | _ => false

/-- Whether a member base has to be in parentheses, as its dot would read as a decimal point. -/
def isNumber : Node → Bool
  | .num _ => true
  | _ => false

/-- Whether an expression statement has to be in parentheses, as its first token would start a
    declaration or a block. -/
def startsStatement : Node → Bool
  | .function _ _ _ | .object _ => true
  | _ => false

/-! ## §2. The forms of nodes. -/

mutual

/-- A node laid out on its own at the given depth.  `asBody` tells whether the node is the body
    of a control structure, where a splice is put in braces. -/
def form (depth : Nat) (asBody : Bool) : Node → Except Failure Layout
  | .absent => .ok []
  | .name x => .ok (ofText x)
  | .num x => .ok (ofText x)
  | .string s => .ok (ofText (quote s))
  | .atom w => .ok (ofText w)
  | .regexp p fl => .ok (ofText ("/" ++ p ++ "/" ++ fl))
  | .array es => do
      let items ← operands depth es
      return ofText "[" ++ Layout.joined ", " items ++ ofText "]"
  | .object ps => do
      let items ← properties depth ps
      return if ps.isEmpty then ofText "\x7b\x7d"
        else ofText "\x7b " ++ Layout.joined ", " items ++ ofText " \x7d"
  | .call c as => do
      let callee ← asOperand Precedence.call c (form depth false c)
      let args ← operands depth as
      return (if isFunction c then callee.parens else callee) ++
        Layout.parens (Layout.joined ", " args)
  | .new c as => do
      let callee ← asOperand Precedence.member c (form depth false c)
      let args ← operands depth as
      return ofText "new " ++ callee ++ Layout.parens (Layout.joined ", " args)
  | .binary op l r => do
      let left ← asOperand (Precedence.ofBinary op) l (form depth false l)
      let right ← asOperand (Precedence.ofBinary op + 1) r (form depth false r)
      return left ++ ofText (" " ++ op ++ " ") ++ right
  | .unary .after op e => do
      let operand ← asOperand Precedence.after e (form depth false e)
      return operand ++ ofText op
  | .unary .before op e => do
      let operand ← asOperand Precedence.before e (form depth false e)
      return ofText op ++ (if isWord op || fuses op operand then ofText " " else []) ++ operand
  | .assign op t v => do
      let target ← asOperand Precedence.after t (form depth false t)
      let value ← asOperand Precedence.assign v (form depth false v)
      return target ++ ofText (" " ++ op ++ "= ") ++ value
  | .dot b f => do
      let base ← asOperand Precedence.call b (form depth false b)
      return (if isNumber b then base.parens else base) ++ ofText ("." ++ f)
  | .sub b i => do
      let base ← asOperand Precedence.call b (form depth false b)
      let index ← asOperand Precedence.lowest i (form depth false i)
      return base ++ ofText "[" ++ index ++ ofText "]"
  | .conditional t y n => do
      let test ← asOperand Precedence.or t (form depth false t)
      let yes ← asOperand Precedence.assign y (form depth false y)
      let no ← asOperand Precedence.assign n (form depth false n)
      return test ++ ofText " ? " ++ yes ++ ofText " : " ++ no
  | .seq es => do return Layout.joined ", " (← operands depth es)
  | .function name params body => do
      return functionHead name params ++ Layout.braced depth (← statements (depth + 1) body)
  | .stat e => do
      let l ← asOperand Precedence.lowest e (form depth false e)
      return (if startsStatement e then l.parens else l) ++ ofText ";"
  | .var ds => do return ofText "var " ++ Layout.joined ", " (← bindings depth ds)
  | .const ds => do return ofText "const " ++ Layout.joined ", " (← bindings depth ds)
  | .block body => do return Layout.braced depth (← statements (depth + 1) body)
  | .splice nodes =>
      if asBody then do return Layout.braced depth (← statements (depth + 1) nodes)
      else do return Layout.lines depth (← statements depth nodes)
  | .ifElse c y n => do
      let cond ← asOperand Precedence.lowest c (form depth false c)
      let yes ←
        if capturesElse y && !n.isAbsent then
          (Layout.braced depth [·]) <$> asStatement y (form (depth + 1) false y)
        else asStatement y (form depth true y)
      let no ←
        if n.isAbsent then .ok []
        else (ofText " else " ++ ·) <$> asStatement n (form depth true n)
      return ofText "if (" ++ cond ++ ofText ") " ++ yes ++ no
  | .forLoop i c s b => do
      let init ← asHeader i (form depth false i)
      let cond ← asOptional c (form depth false c)
      let step ← asOptional s (form depth false s)
      let body ← asStatement b (form depth true b)
      return ofText "for (" ++ init ++ ofText "; " ++ cond ++ ofText "; " ++ step ++
        ofText ") " ++ body
  | .forIn i o b => do
      let init ←
        match i with
        | .var _ => form depth false i
        | _ => asOperand Precedence.after i (form depth false i)
      let object ← asOperand Precedence.lowest o (form depth false o)
      let body ← asStatement b (form depth true b)
      return ofText "for (" ++ init ++ ofText " in " ++ object ++ ofText ") " ++ body
  | .whileLoop c b => do
      let cond ← asOperand Precedence.lowest c (form depth false c)
      let body ← asStatement b (form depth true b)
      return ofText "while (" ++ cond ++ ofText ") " ++ body
  | .doLoop c b => do
      let body ← asStatement b (form depth true b)
      let cond ← asOperand Precedence.lowest c (form depth false c)
      return ofText "do " ++ body ++ ofText " while (" ++ cond ++ ofText ");"
  | .breakTo l => .ok (jump "break" l)
  | .continueTo l => .ok (jump "continue" l)
  | .debugger => .ok (ofText "debugger;")
  | .label l b => do
      return ofText (l ++ ": ") ++ (← asStatement b (form depth false b))
  | .ret v =>
      if v.isAbsent then .ok (ofText "return;")
      else do
        let value ← asOperand Precedence.lowest v (form depth false v)
        return ofText "return " ++ value ++ ofText ";"
  | .throw v => do
      let value ← asOperand Precedence.lowest v (form depth false v)
      return ofText "throw " ++ value ++ ofText ";"
  | .tryCatch b h f => do
      let body ← statements (depth + 1) b
      let handler ← catchClause depth h
      let finalizer ← finallyClause depth f
      return ofText "try " ++ Layout.braced depth body ++ handler ++ finalizer
  | .switch d cs => do
      let disc ← asOperand Precedence.lowest d (form depth false d)
      let clauses ← switchClauses (depth + 1) cs
      return ofText "switch (" ++ disc ++ ofText ") \x7b" ++ clauses ++ [.line depth] ++
        ofText "\x7d"
  | .withObject o b => do
      let object ← asOperand Precedence.lowest o (form depth false o)
      let body ← asStatement b (form depth true b)
      return ofText "with (" ++ object ++ ofText ") " ++ body
  | .defun name params body => do
      return functionHead name params ++ Layout.braced depth (← statements (depth + 1) body)
  | .toplevel body => do return Layout.lines depth (← statements depth body)

/-- The members of an expression list. -/
def operands (depth : Nat) : List Node → Except Failure (List Layout)
  | [] => .ok []
  | n :: rest => do
      let first ← asOperand Precedence.assign n (form depth false n)
      return first :: (← operands depth rest)

/-- The properties of an object literal. -/
def properties (depth : Nat) : List (String × Node) → Except Failure (List Layout)
  | [] => .ok []
  | (k, n) :: rest => do
      let value ← asOperand Precedence.assign n (form depth false n)
      return (ofText (key k ++ ": ") ++ value) :: (← properties depth rest)

/-- The bindings of a declaration. -/
def bindings (depth : Nat) : List (String × Node) → Except Failure (List Layout)
  | [] => .ok []
  | (x, n) :: rest => do
      let first ←
        if n.isAbsent then .ok (ofText x)
        else (ofText (x ++ " = ") ++ ·) <$> asOperand Precedence.assign n (form depth false n)
      return first :: (← bindings depth rest)

/-- The statements of a list, splices expanded and empty positions dropped. -/
def statements (depth : Nat) : List Node → Except Failure (List Layout)
  | [] => .ok []
  | .absent :: rest => statements depth rest
  | .splice nodes :: rest => do
      let first ← statements depth nodes
      return first ++ (← statements depth rest)
  | n :: rest => do
      let first ← asStatement n (form depth false n)
      return first :: (← statements depth rest)

/-- A catch clause, if there is one. -/
def catchClause (depth : Nat) : Option (String × List Node) → Except Failure Layout
  | none => .ok []
  | some (x, body) => do
      let items ← statements (depth + 1) body
      return ofText (" catch (" ++ x ++ ") ") ++ Layout.braced depth items

/-- A `finally` clause, if there is one. -/
def finallyClause (depth : Nat) : Option (List Node) → Except Failure Layout
  | none => .ok []
  | some body => do
      return ofText " finally " ++ Layout.braced depth (← statements (depth + 1) body)

/-- The clauses of a switch statement; the one without a test is the default. -/
def switchClauses (depth : Nat) : List (Node × List Node) → Except Failure Layout
  | [] => .ok []
  | (t, body) :: rest => do
      let head ←
        if t.isAbsent then .ok (ofText "default:")
        else
          (fun test => ofText "case " ++ test ++ ofText ":") <$>
            asOperand Precedence.lowest t (form depth false t)
      let items ← statements (depth + 1) body
      let others ← switchClauses depth rest
      return .line depth :: head ++ Layout.hanging (depth + 1) items ++ others

end

/-! ## §3. Rendering. -/

/-- A node laid out as a text of its own. -/
def layout (n : Node) : Except Failure Layout :=
  if n.isAbsent then .error (.invalidInput .render "nil node")
  else if n.isExpression then form 0 false n
  else do return Layout.lines 0 (← statements 0 [n])

/-- A node as source text in the given style. -/
def render (st : Style) (n : Node) : Except Failure String := do
  return st.write (← layout n)

end Resumable.Source

namespace Resumable

/-- Anything that turns nodes into source text. -/
abbrev Renderer := Node → Except Failure String

end Resumable
