/-
  Resumable.Tree.Document — trees from documents.

  A node is written as a list: its tag, then its operands in order.  `decodeStep` reads one such
  list and leaves its operands to a reader it is given; `Document.decode` ties the knot.

  Aliases are followed as if what they refer to stood in their place.  As an alias may refer to an
  enclosing node, nothing bounds the depth of a reading: `Document.decode` is the least solution of
  its equation, and `none` stands for a reading that goes on for ever.
-/
import Resumable.Failure
import Resumable.Tree.Node
import Resumable.Yaml.Node

namespace Resumable.Tree

/-! ## §1. Operands. -/

/-- A reading step; `none` stands for a reading without end. -/
abbrev Decode := ExceptT Failure Option

/-- Where a reading stands: the names on the way there, innermost first. -/
abbrev Path := List String

/-- Reads the node at a path. -/
abbrev NodeReader := Path → Yaml.Node → Decode Node

/-- The failure of a node whose operands are malformed. -/
def malformed {α : Type} (path : Path) (node detail : String) : Decode α :=
  throw (.invalidNode .parse path.reverse node detail)

variable (doc : Yaml.Document)

/-- A scalar operand. -/
def scalar (path : Path) (what : String) (n : Yaml.Node) : Decode String :=
  match doc.follow n with
  | .scalar _ value _ _ => pure value
  | m => malformed path what ("expected scalar, found " ++ doc.tagOf m)

/-- A scalar operand that may be left out. -/
def optionalScalar (path : Path) (what : String) : Option Yaml.Node → Decode String
  | none => pure ""
  | some n => if n.isNull then pure "" else scalar doc path what n

/-- A list operand; null stands for no elements. -/
def list (path : Path) (what : String) : Option Yaml.Node → Decode (List Yaml.Node)
  | none => pure []
  | some n =>
      match doc.follow n with
      | .sequence _ items _ => pure items
      | m =>
          if m.isNull then pure []
          else malformed path what ("expected list, found " ++ doc.tagOf m)

variable (child : NodeReader)

/-- A node operand that may be left out. -/
def optionalNode (path : Path) : Option Yaml.Node → Decode Node
  | none => pure .absent
  | some n => if n.isNull then pure .absent else child path n

/-- A list of nodes. -/
def nodes (path : Path) (what : String) (n : Option Yaml.Node) : Decode (List Node) := do
  let items ← list doc path what n
  items.zipIdx.mapM (fun (item, i) => child ((what ++ "[" ++ toString i ++ "]") :: path) item)

/-- A list of scalars. -/
def names (path : Path) (what : String) (n : Yaml.Node) : Decode (List String) := do
  let items ← list doc path what (some n)
  items.mapM (scalar doc path what)

/-- The bindings of a declaration. -/
def bindings (path : Path) (n : Yaml.Node) : Decode (List (String × Node)) := do
  let items ← list doc path "defs" (some n)
  items.mapM (fun item => do
    match ← list doc path "defs" (some item) with
    | [x] => return (← scalar doc path "defs" x, Node.absent)
    | [x, init] =>
        let x ← scalar doc path "defs" x
        return (x, ← optionalNode child (x :: path) (some init))
    | _ => malformed path "defs" "binding needs a name and an optional initializer")

/-- The properties of an object literal. -/
def properties (path : Path) (n : Yaml.Node) : Decode (List (String × Node)) := do
  let items ← list doc path "props" (some n)
  items.mapM (fun item => do
    match ← list doc path "props" (some item) with
    | [k, v] =>
        let k ← scalar doc path "key" k
        return (k, ← child (k :: path) v)
    | _ => malformed path "object" "property needs a key and a value")

/-- The clauses of a switch statement. -/
def clauses (path : Path) (n : Yaml.Node) : Decode (List (Node × List Node)) := do
  let items ← list doc path "cases" (some n)
  items.zipIdx.mapM (fun (item, i) => do
    match ← list doc path "cases" (some item) with
    | [test, body] =>
        let test ← optionalNode child path (some test)
        return (test, ← nodes doc child path ("case[" ++ toString i ++ "]") (some body))
    | _ =>
        malformed path "switch" ("case " ++ toString i ++ " needs a test and a body"))

/-- The operator of an assignment: the flag `true` for a plain one, or the operator with its
    equals sign. -/
def assignOperator (path : Path) (n : Yaml.Node) : Decode String :=
  let operator := do
    let s ← scalar doc path "assign" n
    return if s.endsWith "=" then (s.dropEnd 1).toString else s
  match n with
  | .scalar tag value _ _ =>
      if tag == Yaml.Tag.bool then
        if value == "true" then pure ""
        else malformed path "assign" "operator flag must be true or an operator"
      else operator
  | _ => operator

/-- The catch clause of a try statement. -/
def handler (path : Path) : Option Yaml.Node → Decode (Option (String × List Node))
  | none => pure none
  | some n =>
      if n.isNull then pure none
      else do
        match ← list doc path "catch" (some n) with
        | [x, body] =>
            let x ← scalar doc path "catch" x
            return some (x, ← nodes doc child path "catch" (some body))
        | _ => malformed path "try" "catch needs a name and a body"

/-- The `finally` list of a try statement. -/
def finalizer (path : Path) : Option Yaml.Node → Decode (Option (List Node))
  | none => pure none
  | some n =>
      if n.isNull then pure none
      else return some (← nodes doc child path "finally" (some n))

/-! ## §2. Nodes. -/

/-- Reads the operands of a node of a known kind.  The number of operands is one the kind
    accepts. -/
def operands (path : Path) (kind : Kind) (ops : List Yaml.Node) : Decode Node :=
  let what := kind.tag
  match kind, ops with
  | .name, [a] => return .name (← scalar doc path what a)
  | .num, [a] => return .num (← scalar doc path what a)
  | .string, [a] => return .string (← scalar doc path what a)
  | .atom, [a] => return .atom (← scalar doc path what a)
  | .regexp, a :: rest => do
      let pattern ← scalar doc path what a
      return .regexp pattern (← optionalScalar doc path what rest.head?)
  | .array, [a] => return .array (← nodes doc child path "elements" (some a))
  | .object, [a] => return .object (← properties doc child path a)
  | .call, [c, as] => do
      let callee ← child path c
      return .call callee (← nodes doc child path "args" (some as))
  | .new, c :: rest => do
      let callee ← child path c
      return .new callee (← nodes doc child path "args" rest.head?)
  | .binary, [op, l, r] => do
      let op ← scalar doc path what op
      let left ← child path l
      return .binary op left (← child path r)
  | .unaryBefore, [op, e] => do
      let op ← scalar doc path what op
      return .unary .before op (← child path e)
  | .unaryAfter, [op, e] => do
      let op ← scalar doc path what op
      return .unary .after op (← child path e)
  | .assign, [op, t, v] => do
      let op ← assignOperator doc path op
      let target ← child path t
      return .assign op target (← child path v)
  | .dot, [b, f] => do
      let base ← child path b
      return .dot base (← scalar doc path what f)
  | .sub, [b, i] => do
      let base ← child path b
      return .sub base (← child path i)
  | .conditional, [t, y, n] => do
      let test ← child path t
      let yes ← child path y
      return .conditional test yes (← child path n)
  | .seq, ops => return .seq (← ops.mapM (child path))
  | .function, [f, ps, b] => do
      let name ← optionalScalar doc path what (some f)
      let params ← names doc path "params" ps
      return .function name params (← nodes doc child path "body" (some b))
  | .defun, [f, ps, b] => do
      let name ← optionalScalar doc path what (some f)
      let params ← names doc path "params" ps
      let body ← nodes doc child path "body" (some b)
      if name.isEmpty then malformed path what "function declaration needs a name"
      else return .defun name params body
  | .stat, [e] => return .stat (← child path e)
  | .var, [ds] => return .var (← bindings doc child path ds)
  | .const, [ds] => return .const (← bindings doc child path ds)
  | .block, ops => return .block (← nodes doc child path "body" ops.head?)
  | .ifElse, c :: y :: rest => do
      let cond ← child path c
      let yes ← child path y
      return .ifElse cond yes (← optionalNode child path rest.head?)
  | .forLoop, [i, c, s, b] => do
      let init ← optionalNode child path (some i)
      let cond ← optionalNode child path (some c)
      let step ← optionalNode child path (some s)
      let body ← optionalNode child path (some b)
      if body.isAbsent then malformed path what "missing loop body"
      else return .forLoop init cond step body
  | .forIn, [i, o, b] | .forIn, [i, _, o, b] => do
      let init ← child path i
      let object ← child path o
      return .forIn init object (← child path b)
  | .whileLoop, [c, b] => do
      let cond ← child path c
      return .whileLoop cond (← child path b)
  | .doLoop, [c, b] => do
      let cond ← child path c
      return .doLoop cond (← child path b)
  | .breakTo, ops => return .breakTo (← optionalScalar doc path what ops.head?)
  | .continueTo, ops => return .continueTo (← optionalScalar doc path what ops.head?)
  | .debugger, _ => return .debugger
  | .label, [l, b] => do
      let l ← scalar doc path what l
      return .label l (← child path b)
  | .ret, ops => return .ret (← optionalNode child path ops.head?)
  | .throw, [v] => return .throw (← child path v)
  | .tryCatch, b :: rest => do
      let body ← nodes doc child path "body" (some b)
      let handler ← handler doc child path rest.head?
      return .tryCatch body handler (← finalizer doc child path (rest.drop 1).head?)
  | .switch, [d, cs] => do
      let disc ← child path d
      return .switch disc (← clauses doc child path cs)
  | .withObject, [o, b] => do
      let object ← child path o
      return .withObject object (← child path b)
  | .toplevel, [b] => return .toplevel (← nodes doc child path "body" (some b))
  | .splice, [ns] => return .splice (← nodes doc child path "nodes" (some ns))
  | _, _ => throw (.unknownNode .parse path.reverse what)

/-- Reads one node, its operands by `child`. -/
def decodeStep (path : Path) (n : Yaml.Node) : Decode Node :=
  match doc.follow n with
  | .sequence _ (head :: ops) _ => do
      let tag ← scalar doc path "tag" head
      match Kind.ofTag? tag with
      | none => throw (.unknownNode .parse path.reverse tag)
      | some kind =>
          if kind.accepts ops.length then operands doc child (tag :: path) kind ops
          else malformed path tag ("got " ++ toString ops.length ++ " operands")
  | m => malformed path "" ("node must be a non-empty list, found " ++ doc.tagOf m)

/-! ## §3. The least reading. -/

/-- The second reading gives the answer of the first wherever there is one. -/
def Extends {α : Type} (x y : Decode α) : Prop := ∀ r, x = some r → y = some r

namespace Extends

variable {α β : Type} {x y : Decode α}

theorem refl (x : Decode α) : Extends x x := fun _ h => h

theorem bind {f g : α → Decode β} (h : Extends x y) (hfg : ∀ a, Extends (f a) (g a)) :
    Extends (x >>= f) (y >>= g) := by
  intro r hr
  cases x with
  | none => cases hr
  | some s =>
    rw [h s rfl]
    cases s with
    | error e => exact hr
    | ok a => exact hfg a r hr

theorem mapM {f g : α → Decode β} (h : ∀ a, Extends (f a) (g a)) (xs : List α) :
    Extends (xs.mapM f) (xs.mapM g) := by
  induction xs with
  | nil => exact refl _
  | cons a xs ih =>
    rw [List.mapM_cons, List.mapM_cons]
    exact (h a).bind fun _ => ih.bind fun _ => refl _

end Extends

section

variable {doc child} {child' : NodeReader} (h : ∀ path n, Extends (child path n) (child' path n))
include h

theorem optionalNode_extends (path : Path) (n : Option Yaml.Node) :
    Extends (optionalNode child path n) (optionalNode child' path n) := by
  unfold optionalNode
  split
  · exact .refl _
  · split
    · exact .refl _
    · exact h _ _

theorem nodes_extends (path : Path) (what : String) (n : Option Yaml.Node) :
    Extends (nodes doc child path what n) (nodes doc child' path what n) :=
  .bind (.refl _) fun _ => .mapM (fun _ => h _ _) _

theorem bindings_extends (path : Path) (n : Yaml.Node) :
    Extends (bindings doc child path n) (bindings doc child' path n) := by
  refine .bind (.refl _) fun _ => .mapM (fun _ => .bind (.refl _) fun _ => ?_) _
  split
  · exact .refl _
  · exact .bind (.refl _) fun _ => .bind (optionalNode_extends h _ _) fun _ => .refl _
  · exact .refl _

theorem properties_extends (path : Path) (n : Yaml.Node) :
    Extends (properties doc child path n) (properties doc child' path n) := by
  refine .bind (.refl _) fun _ => .mapM (fun _ => .bind (.refl _) fun _ => ?_) _
  split
  · exact .bind (.refl _) fun _ => .bind (h _ _) fun _ => .refl _
  · exact .refl _

theorem clauses_extends (path : Path) (n : Yaml.Node) :
    Extends (clauses doc child path n) (clauses doc child' path n) := by
  refine .bind (.refl _) fun _ => .mapM (fun _ => .bind (.refl _) fun _ => ?_) _
  split
  · exact .bind (optionalNode_extends h _ _) fun _ =>
      .bind (nodes_extends h _ _ _) fun _ => .refl _
  · exact .refl _

theorem handler_extends (path : Path) (n : Option Yaml.Node) :
    Extends (handler doc child path n) (handler doc child' path n) := by
  unfold handler
  split
  · exact .refl _
  · split
    · exact .refl _
    · refine .bind (.refl _) fun _ => ?_
      split
      · exact .bind (.refl _) fun _ => .bind (nodes_extends h _ _ _) fun _ => .refl _
      · exact .refl _

theorem finalizer_extends (path : Path) (n : Option Yaml.Node) :
    Extends (finalizer doc child path n) (finalizer doc child' path n) := by
  unfold finalizer
  split
  · exact .refl _
  · split
    · exact .refl _
    · exact .bind (nodes_extends h _ _ _) fun _ => .refl _

theorem operands_extends (path : Path) (kind : Kind) (ops : List Yaml.Node) :
    Extends (operands doc child path kind ops) (operands doc child' path kind ops) := by
  unfold operands
  split <;> dsimp only
  -- name, num, string, atom and regexp
  iterate 5
    exact .refl _
  -- array and object
  · exact .bind (nodes_extends h _ _ _) fun _ => .refl _
  · exact .bind (properties_extends h _ _) fun _ => .refl _
  -- call and new
  iterate 2
    exact .bind (h _ _) fun _ => .bind (nodes_extends h _ _ _) fun _ => .refl _
  -- operators
  · exact .bind (.refl _) fun _ => .bind (h _ _) fun _ => .bind (h _ _) fun _ => .refl _
  iterate 2
    exact .bind (.refl _) fun _ => .bind (h _ _) fun _ => .refl _
  · exact .bind (.refl _) fun _ => .bind (h _ _) fun _ => .bind (h _ _) fun _ => .refl _
  -- dot, sub and conditional
  · exact .bind (h _ _) fun _ => .refl _
  · exact .bind (h _ _) fun _ => .bind (h _ _) fun _ => .refl _
  · exact .bind (h _ _) fun _ => .bind (h _ _) fun _ => .bind (h _ _) fun _ => .refl _
  -- seq
  · exact .bind (.mapM (fun _ => h _ _) _) fun _ => .refl _
  -- function and defun
  iterate 2
    exact .bind (.refl _) fun _ => .bind (.refl _) fun _ =>
      .bind (nodes_extends h _ _ _) fun _ => .refl _
  -- stat, var, const and block
  · exact .bind (h _ _) fun _ => .refl _
  iterate 2
    exact .bind (bindings_extends h _ _) fun _ => .refl _
  · exact .bind (nodes_extends h _ _ _) fun _ => .refl _
  -- if and for
  · exact .bind (h _ _) fun _ => .bind (h _ _) fun _ =>
      .bind (optionalNode_extends h _ _) fun _ => .refl _
  · exact .bind (optionalNode_extends h _ _) fun _ => .bind (optionalNode_extends h _ _) fun _ =>
      .bind (optionalNode_extends h _ _) fun _ => .bind (optionalNode_extends h _ _) fun _ =>
      .refl _
  -- for-in with three operands and with four
  iterate 2
    exact .bind (h _ _) fun _ => .bind (h _ _) fun _ => .bind (h _ _) fun _ => .refl _
  -- while and do
  iterate 2
    exact .bind (h _ _) fun _ => .bind (h _ _) fun _ => .refl _
  -- jumps
  iterate 3
    exact .refl _
  · exact .bind (.refl _) fun _ => .bind (h _ _) fun _ => .refl _
  · exact .bind (optionalNode_extends h _ _) fun _ => .refl _
  · exact .bind (h _ _) fun _ => .refl _
  -- try, switch and with
  · exact .bind (nodes_extends h _ _ _) fun _ => .bind (handler_extends h _ _) fun _ =>
      .bind (finalizer_extends h _ _) fun _ => .refl _
  · exact .bind (h _ _) fun _ => .bind (clauses_extends h _ _) fun _ => .refl _
  · exact .bind (h _ _) fun _ => .bind (h _ _) fun _ => .refl _
  -- toplevel and splice
  iterate 2
    exact .bind (nodes_extends h _ _ _) fun _ => .refl _
  · exact .refl _

/-- A reader that can read more makes a step that can. -/
theorem decodeStep_extends (path : Path) (n : Yaml.Node) :
    Extends (decodeStep doc child path n) (decodeStep doc child' path n) := by
  unfold decodeStep
  split
  · refine .bind (.refl _) fun _ => ?_
    split
    · exact .refl _
    · split
      · exact operands_extends h _ _ _
      · exact .refl _
  · exact .refl _

end

end Resumable.Tree

namespace Resumable

/-- Reads a node of a document with everything in it. -/
def Yaml.Document.decode (doc : Yaml.Document) (path : Tree.Path) (n : Yaml.Node) :
    Option (Except Failure Resumable.Node) :=
  Tree.decodeStep doc (doc |>.decode) path n
partial_fixpoint monotonicity by
  intro child child' hchild path n
  have hextends :
      Tree.Extends (Tree.decodeStep doc child path n) (Tree.decodeStep doc child' path n) := by
    refine Tree.decodeStep_extends (fun path m r hr => ?_) path n
    have hm := hchild path m
    rw [hr] at hm
    generalize child' path m = y at hm
    cases hm
    rfl
  dsimp only
  cases hx : Tree.decodeStep doc child path n with
  | none => exact .bot
  | some r =>
    rw [hextends r hx]
    exact .refl

end Resumable

/-! ## §4. Documents. -/

namespace Resumable.Node

/-- The tree of a document. -/
def ofDocument (doc : Yaml.Document) : Except Failure Node :=
  match doc.decode [] doc.root with
  | some result => result
  | none => .error .endless

/-- Reads a document that holds any single node. -/
def parse (bytes : Bytes) : Except Failure Node :=
  match Yaml.Document.parse bytes with
  | .error _ => .error (.parseFailed "tree document" (some .external))
  | .ok none => .error (.invalidInput .parse "empty tree document")
  | .ok (some doc) => ofDocument doc

/-- Reads the document of a compile unit.  A function declaration at the root is a unit of its
    own. -/
def parseUnit (bytes : Bytes) : Except Failure Node := do
  match ← parse bytes with
  | n@(.toplevel _) => return n
  | n@(.defun _ _ _) => return .toplevel [n]
  | n =>
      .error (.only { phase := .parse, category := .invalidNode, path := [n.tag], node := n.tag
                      detail := "root must be toplevel or defun" })

end Resumable.Node
