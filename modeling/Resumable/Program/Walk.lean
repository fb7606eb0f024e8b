/-
  Resumable.Program.Walk — splitting calls out of a tree.

  The walk goes through a unit depth first and from left to right.  Every call becomes an
  instruction of its own, followed by one that captures the value the runtime returned in a new
  temp.  An expression that uses a captured value is captured in turn, so the order of evaluation
  survives.  Branches, parts of loops and function bodies are collected in frames of their own.

  Conditionals, sequences, function literals and the statements that are passed through are not
  split: they are copied with their references redirected.

  A walk that fails keeps its state, so that the remarks made so far are not lost.
-/
import Resumable.Failure
import Resumable.Log
import Resumable.Tree.Traverse
import Resumable.Program.Frames
import Resumable.Program.Instr
import Resumable.Program.Rename
import Resumable.Program.Trail

namespace Resumable.Program

/-! ## §1. State. -/

/-- A remark of the walk. -/
inductive Remark where
  /-- The names declared before the walk. -/
  | declared (names : List String)
  /-- A call that may suspend, and the temp that captures its value. -/
  | asyncCall (callee temp : String)
  /-- Both operands of a short-circuit operator are evaluated, because one was split. -/
  | hoistedOperand (op : String) (place : Place)
  /-- A binding that gets its value only after a split. -/
  | deferredBinding (name : String)
  /-- The split parts of a branch. -/
  | shape (shape : Shape) (place : Place)
  /-- A call that may suspend inside a construct that is not split. -/
  | unanalyzed (kind callee : String) (place : Place)
  deriving Repr

namespace Remark

/-- A remark as an entry of the log. -/
def entry (trail : Trail) : Remark → Log.Entry
  | declared names => { level := .debug, message := "declared locals"
                        fields := [("names", .texts names)] }
  | asyncCall callee temp => { level := .debug, message := "async call"
                               fields := [("callee", .text callee), ("temp", .text temp)] }
  | hoistedOperand op place =>
      { level := .debug, message := "short-circuit operand hoisted"
        fields := [("op", .text op), ("path", .texts (trail.read place))] }
  | deferredBinding name => { level := .debug, message := "deferred declaration"
                              fields := [("name", .text name)] }
  | shape s place =>
      { level := .debug, message := "if shape"
        fields := [("bits", .number s.bits), ("path", .texts (trail.read place))] }
  | unanalyzed kind callee place =>
      { level := .warn, message := "async call inside unanalyzed construct"
        fields := [("kind", .text kind), ("callee", .text callee),
                   ("path", .texts (trail.read place))] }

end Remark

/-- The state of a walk. -/
structure State where
  scope : Scope
  frames : Frames Instr := {}
  trail : Trail := {}
  remarks : List Remark := []
  /-- How many calls were split out. -/
  calls : Nat := 0
  /-- How many of them may suspend. -/
  asyncCalls : Nat := 0
  deriving Inhabited

/-- A part of a walk: a value or a failure, and the state it leaves. -/
abbrev Walk := ExceptT Failure (StateM State)

/-- What a walk is told about names. -/
structure Surface where
  /-- Whether a name stands for something that may suspend. -/
  isAsync : String → Bool
  /-- Where the runtime puts the value of a call. -/
  returnValue : Node

namespace Walk

/-! ## §2. Steps. -/

/-- Walks inside a named place. -/
def inside {α : Type} (name : String) (body : Walk α) : Walk α := fun s =>
  let (r, s') := body { s with trail := s.trail.enter name }
  (r, { s' with trail := s'.trail.leave })

/-- Walks in a frame of its own and hands over what was collected there. -/
def framed {α : Type} (body : Walk α) : Walk (α × List Instr) := fun s =>
  let (r, s') := body { s with frames := s.frames.push }
  let (list, frames) := s'.frames.pop?.getD ([], s'.frames)
  (r.map (fun a => (a, list)), { s' with frames })

/-- Acts on the frames. -/
def onFrames (f : Frames Instr → Frames Instr) : Walk Unit :=
  modify fun s => { s with frames := f s.frames }

/-- Queues an instruction. -/
def defer (i : Instr) : Walk Unit := onFrames (·.defer i)

/-- Makes a remark. -/
def remark (r : State → Remark) : Walk Unit :=
  modify fun s => { s with remarks := s.remarks ++ [r s] }

/-- Copies a construct that is not split. -/
def copied (n : Node) : Walk Node := fun s =>
  let (n', scope) := (rename {} n).run s.scope
  (.ok n', { s with scope })

/-- Makes a new temp. -/
def newTemp : Walk String := fun s =>
  let (t, scope) := s.scope.nextTemp
  (.ok t, { s with scope })

/-- Captures a value in a new temp. -/
def capture (value : Node) : Walk (Node × Bool) := do
  let t ← newTemp
  defer (.set (.name t) value)
  return (.name t, true)

/-- The value of an expression whose operands were walked: itself, unless an operand was
    split. -/
def settle (value : Node) (split : Bool) : Walk (Node × Bool) :=
  if split then capture value else pure (value, false)

/-- The failure of a node that cannot stand where it stands. -/
def misplaced {α : Type} (n : Node) : Walk α := do
  let path := (← get).trail.here
  if n.isAbsent then throw (.invalidNode .transform path "nil" "missing node")
  else throw (.unknownNode .transform path n.tag)

/-! ## §3. Names that may suspend. -/

/-- The name by which a callee is known: the identifier, or the field of a member access. -/
def calleeName : Node → String
  | .name x => x
  | .dot _ f => f
  | _ => ""

/-- Whether a node is a name or member access that may suspend. -/
def isPrimitive (isAsync : String → Bool) : Node → Bool
  | .name x => isAsync x
  | .dot _ f => isAsync f
  | _ => false

/-- Whether a node is a call. -/
def isCall : Node → Bool
  | .call _ _ => true
  | _ => false

/-- Whether a node mentions something that may suspend, outside of nested calls. -/
def mentions (isAsync : String → Bool) (n : Node) : Bool :=
  (n.inspect (fun k => !isCall k)).any (isPrimitive isAsync)

/-- The name of a call that may suspend. -/
def flaggedName? (isAsync : String → Bool) : Node → Option String
  | .call c _ =>
      let x := calleeName c
      if !x.isEmpty && isAsync x then some x else none
  | _ => none

/-- The name of the first call inside a node that may suspend. -/
def flaggedCall? (isAsync : String → Bool) (n : Node) : Option String :=
  (n.inspect (fun _ => true)).findSome? (flaggedName? isAsync)

variable (env : Surface)

/-- Warns of a call that may suspend inside a construct that is not split. -/
def warn (n : Node) : Walk Unit :=
  match flaggedCall? env.isAsync n with
  | none => pure ()
  | some callee => remark fun s => .unanalyzed n.tag callee s.trail.place

/-- A construct that is not split. -/
def unsplit (n : Node) : Walk Node := do
  warn env n
  copied n

/-! ## §4. Expressions. -/

/-- Whether a node can be assigned to. -/
def isTarget : Node → Bool
  | .name _ | .dot _ _ | .sub _ _ => true
  | _ => false

/-- Whether a node is a member access. -/
def isMember : Node → Bool
  | .dot _ _ | .sub _ _ => true
  | _ => false

/-- Whether a unary operator changes its operand. -/
def mutates (op : String) : Bool := op == "++" || op == "--" || op == "delete"

/-- Whether a binary operator evaluates its right operand only sometimes. -/
def shortCircuits (op : String) : Bool := op == "&&" || op == "||"

/-- Emits a call whose callee and arguments were walked and captures its value. -/
def emitCall (source : Node) (async : Bool) (callee : Node) (args : List Node) :
    Walk (Node × Bool) := do
  onFrames (·.emit (.leaf "call" (.stat (.call callee args)) async))
  modify fun s => { s with calls := s.calls + 1, asyncCalls := s.asyncCalls + async.toNat }
  let t ← newTemp
  defer (.set (.name t) env.returnValue)
  if async then remark fun _ => .asyncCall (calleeName source) t
  return (.name t, true)

mutual

/-- Walks an expression.  The answer is what stands for its value, and whether it was split. -/
def expr : Node → Walk (Node × Bool)
  | .name x => do return ((← get).scope.resolve x, false)
  | n@(.num _) | n@(.string _) | n@(.atom _) | n@(.regexp _ _) => pure (n, false)
  | .call c args =>
      inside "call" do
        let async := mentions env.isAsync c || args.any (mentions env.isAsync)
        let (c', _) ← if isMember c then target c else expr c
        let (args', _) ← operands args
        emitCall env c async c' args'
  | .new c args => do
      let (c', cs) ← expr c
      let (args', as) ← operands args
      settle (.new c' args') (cs || as)
  | .binary op l r => do
      let (l', ls) ← expr l
      let (r', rs) ← expr r
      if (ls || rs) && shortCircuits op then
        remark fun s => .hoistedOperand op s.trail.place
      settle (.binary op l' r') (ls || rs)
  | .unary side op e => do
      let (e', es) ← if mutates op && isTarget e then target e else expr e
      settle (.unary side op e') es
  | .assign op t v => do
      let (t', ts) ← target t
      let (v', vs) ← expr v
      if ts || vs then
        defer (.stat (.assign op t' v'))
        return (t', true)
      else return (.assign op t' v', false)
  | .dot b f => do
      let (b', bs) ← expr b
      settle (.dot b' f) bs
  | .sub b i => do
      let (b', bs) ← expr b
      let (i', is) ← expr i
      settle (.sub b' i') (bs || is)
  | .array es => do
      let (es', s) ← operands es
      settle (.array es') s
  | .object ps => do
      let (ps', s) ← fields ps
      settle (.object ps') s
  | n@(.conditional _ _ _) | n@(.seq _) | n@(.function _ _ _) =>
      (fun n' => (n', false)) <$> unsplit env n
  | n => misplaced n

/-- Walks something that is assigned to or called; its last member access stays where it is. -/
def target : Node → Walk (Node × Bool)
  | .name x => do return ((← get).scope.resolve x, false)
  | .dot b f => do
      let (b', bs) ← expr b
      return (.dot b' f, bs)
  | .sub b i => do
      let (b', bs) ← expr b
      let (i', is) ← expr i
      return (.sub b' i', bs || is)
  | n => do throw (.invalidTarget (← get).trail.here n.tag)

/-- Walks operands from left to right. -/
def operands : List Node → Walk (List Node × Bool)
  | [] => pure ([], false)
  | e :: rest => do
      let (e', es) ← expr e
      let (rest', rs) ← operands rest
      return (e' :: rest', es || rs)

/-- Walks the values of an object literal. -/
def fields : List (String × Node) → Walk (List (String × Node) × Bool)
  | [] => pure ([], false)
  | (k, e) :: rest => do
      let (e', es) ← expr e
      let (rest', rs) ← fields rest
      return ((k, e') :: rest', es || rs)

end

/-! ## §5. Statements. -/

/-- An expression as a statement.  A split one has queued all it needs. -/
def statement (walk : Walk (Node × Bool)) : Walk Bool := do
  let (v, split) ← walk
  if !split then defer (.stat v)
  return split

/-- A statement position: an expression is allowed there as well. -/
def statementOr (n : Node) (otherwise : Walk Bool) : Walk Bool :=
  if n.isExpression then statement (expr env n) else otherwise

/-- A `var` binding.  One whose value is split gets a null in front of the split. -/
def binding (x : String) (init : Node) : Walk Bool := do
  modify fun s => { s with scope := s.scope.declare x }
  let field := (← get).scope.field x
  if init.isAbsent then
    defer (.set field .null)
    return false
  let (mark, v, split) ← inside ("var:" ++ x) do
    let (mark, frames) := (← get).frames.mark
    onFrames (fun _ => frames)
    let (v, split) ← expr env init
    return (mark, v, split)
  if split then
    onFrames (·.insertAt mark (.set field .null))
    remark fun _ => .deferredBinding x
  defer (.set field v)
  return split

/-- The bindings of a `var`. -/
def bindings : List (String × Node) → Walk Bool
  | [] => pure false
  | (x, init) :: rest => do
      let split ← binding env x init
      return (← bindings rest) || split

/-- A branch or body, walked in a place and a frame of its own; an empty position adds
    nothing. -/
def region (name : String) (body : Node) (walk : Walk Bool) : Walk (Bool × List Instr) :=
  inside name (framed (if body.isAbsent then pure false else statementOr env body walk))

/-- The condition of a branch: it is collected by itself and then placed before the branch. -/
def condition (cond : Node) : Walk (Node × Bool) := do
  let (r, list) ← framed (inside "cond" (expr env cond))
  onFrames (·.emitAll list)
  return r

/-- The temp that stands for the value of a list that was just collected, if it was split. -/
def resultTemp (split : Bool) : Walk (Option String) := do
  let s ← get
  return if split then s.scope.lastTemp? else none

/-- A branch whose two sides are given as walks. -/
def branch (cond yes no : Node) (walkYes walkNo : Walk Bool) : Walk Bool :=
  inside "if" do
    let (cond', condSplit) ← condition env cond
    let (yesSplit, yesList) ← region env "then" yes walkYes
    let yesTemp ← resultTemp yesSplit
    let (noSplit, noList) ← region env "else" no walkNo
    let noTemp ← resultTemp noSplit
    let shape : Shape := { cond := condSplit, yes := yesSplit, no := noSplit }
    remark fun s => .shape shape s.trail.place
    defer (.branch cond' yesList noList (!no.isAbsent) shape yesTemp noTemp)
    return shape.any

/-- The initializer of a loop is placed before the loop. -/
def loopInit (init : Node) (walk : Walk Bool) : Walk Bool :=
  if init.isAbsent then pure false
  else do
    let (split, list) ← region env "init" init walk
    onFrames (·.emitAll list)
    return split

/-- The condition of a loop, evaluated anew each time; its list ends with the test. -/
def loopTest (cond : Node) : Walk ((Node × Bool) × List Instr) :=
  framed do
    if cond.isAbsent then return (.absent, false)
    let (c, split) ← inside "cond" (expr env cond)
    defer (.leaf "test" c false)
    return (c, split)

/-- The step of a loop. -/
def loopStep (step : Node) : Walk ((Node × Bool) × List Instr) :=
  framed do
    if step.isAbsent then return (.absent, false)
    let (e, split) ← inside "step" (expr env step)
    if !split then defer (.stat e)
    return (e, split)

/-- A loop whose initializer and body are given as walks. -/
def loop (init cond step body : Node) (walkInit walkBody : Walk Bool) : Walk Bool :=
  inside "for" do
    let initSplit ← loopInit env init walkInit
    let ((cond', condSplit), test) ← loopTest env cond
    let ((step', stepSplit), stepList) ← loopStep env step
    let (bodySplit, bodyList) ← region env "body" body walkBody
    defer (.loop cond' test stepList bodyList condSplit (if stepSplit then .absent else step'))
    return initSplit || condSplit || stepSplit || bodySplit

/-- A function declaration whose body is given as a walk. -/
def declaration (name : String) (params : List String) (walk : Walk Bool) : Walk Bool :=
  inside ("defun:" ++ name) do
    let (_, list) ← framed walk
    defer (.defun name params list)
    return false

/-- A statement that is passed through. -/
def passed (n : Node) : Walk Bool := do
  let n' ← unsplit env n
  defer (.leaf n.tag n' false)
  return false

mutual

/-- Walks a statement other than an expression and says whether it was split. -/
def stmt : Node → Walk Bool
  | .stat e => statement (expr env e)
  | .var ds => bindings env ds
  | .block b => stmts b
  | .splice ns => stmts ns
  | .ifElse c y n => branch env c y n (stmt y) (stmt n)
  | .forLoop i c s b => loop env i c s b (stmt i) (stmt b)
  | .defun f ps b => declaration f ps (stmts b)
  | n@(.breakTo _) | n@(.continueTo _) | n@.debugger => do
      defer (.leaf n.tag n false)
      return false
  | n@(.label _ _) | n@(.whileLoop _ _) | n@(.doLoop _ _) | n@(.tryCatch _ _ _) | n@(.throw _)
  | n@(.switch _ _) | n@(.forIn _ _ _) | n@(.withObject _ _) | n@(.ret _) | n@(.const _) =>
      passed env n
  | n => misplaced n

/-- Walks a list of statements and says whether any was split. -/
def stmts : List Node → Walk Bool
  | [] => pure false
  | n :: rest => do
      let split ← statementOr env n (stmt n)
      return (← stmts rest) || split

end

end Walk

end Resumable.Program
