/-
  Resumable.Proofs.Meaning.Evaluation — what units and programs do.

  Values and operators belong to a host; the theory is the same for every one of them.  A world
  holds the values of places and the calls made so far, and a call is answered from those calls
  alone: it touches no place.  A place is named by a dotted path and lies inside the places that its
  path goes through: what is kept in it is lost when one of those gets a value.

  One evaluator serves the source and the code that instructions carry.  They differ in what counts
  as a place.  In the source every name is one.  In a program the fields of the container and the
  slot for return values are places as well.

  `exec` runs statements from left to right.  `run` runs instructions: a call leaves its answer in
  the slot, and a loop goes on while the last test of its list holds.  No answer means that the
  evaluation is stuck or does not end.
-/
import Resumable.Program.Transform

namespace Resumable.Meaning

open Program (Instr Naming)
open Program.Walk (mutates shortCircuits)

/-! ## §1. Hosts and worlds. -/

/-- A call: what is called, and the values it is called with. -/
structure Call (V : Type) where
  callee : V
  args : List V

/-- Values and what can be done with them. -/
structure Host (V : Type) where
  number : String → V
  text : String → V
  keyword : String → V
  array : List V → V
  member : V → String → Option V
  element : V → V → Option V
  binary : String → V → V → Option V
  unary : String → V → Option V
  truthy : V → Bool
  /-- The answer to a call after other calls. -/
  answer : List (Call V) → Call V → Option V

/-- The values of places, which are named by dotted paths, and the calls made so far. -/
structure World (V : Type) where
  cells : List String → Option V
  history : List (Call V)

/-- A world in which a place has another value.  What was kept inside the place is lost. -/
def World.set {V : Type} (w : World V) (p : List String) (v : V) : World V :=
  { w with cells := fun q => if q = p then some v else if p <+: q then none else w.cells q }

/-- A computation in a world that may have no answer. -/
abbrev Action (V : Type) : Type → Type := StateT (World V) Option

section

variable {V : Type}

/-- The value of a place. -/
def read (p : List String) : Action V V := fun w => (w.cells p).map fun v => (v, w)

/-- Gives a place a value. -/
def write (p : List String) (v : V) : Action V Unit := fun w => some ((), w.set p v)

/-- Does the body again and again while the test holds. -/
def Action.iterate (test : Action V Bool) (body : Action V Unit) (w : World V) :
    Option (Unit × World V) := do
  let (again, w) ← test w
  if again then
    let ((), w) ← body w
    test |>.iterate body w
  else
    some ((), w)
partial_fixpoint

end

/-! ## §2. Expressions. -/

/-- The dotted path that an expression spells. -/
def path? : Node → Option (List String)
  | .name x => some [x]
  | .dot b f => (path? b).map (· ++ [f])
  | _ => none

/-- Which paths name places in the source. -/
def sourcePlace (p : List String) : Bool := p.length == 1

/-- The path of the slot that the host puts answers in. -/
def slot (naming : Naming) : List String := Naming.parts naming.returnValue

/-- Which paths name places in a program. -/
def programPlace (naming : Naming) (p : List String) : Bool :=
  p.length == 1 || p == slot naming || (p.length == 2 && p.head? == some naming.container)

variable {V : Type} (host : Host V) (isPlace : List String → Bool)

/-- The place that an expression names. -/
def place? (n : Node) : Option (List String) := (path? n).filter isPlace

/-- Calls something. -/
def invoke (callee : V) (args : List V) : Action V V := fun w =>
  (host.answer w.history ⟨callee, args⟩).map fun v =>
    (v, { w with history := w.history ++ [⟨callee, args⟩] })

mutual

/-- The value of an expression; its operands are evaluated from left to right. -/
def eval : Node → Action V V
  | .name x => read [x]
  | .num s => pure (host.number s)
  | .string s => pure (host.text s)
  | .atom s => pure (host.keyword s)
  | .array es => host.array <$> evalAll es
  | .dot b f =>
      match place? isPlace (.dot b f) with
      | some p => read p
      | none => do
          let v ← eval b
          host.member v f
  | .sub b i => do
      let v ← eval b
      let k ← eval i
      host.element v k
  | .binary op l r =>
      if shortCircuits op then failure
      else do
        let a ← eval l
        let b ← eval r
        host.binary op a b
  | .unary .before op e =>
      if mutates op then failure
      else do
        let v ← eval e
        host.unary op v
  | .call c args => do
      let f ← eval c
      let vs ← evalAll args
      invoke host f vs
  | _ => failure

/-- The values of expressions from left to right. -/
def evalAll : List Node → Action V (List V)
  | [] => pure []
  | n :: ns => do
      let v ← eval n
      let vs ← evalAll ns
      return v :: vs

end

/-- Evaluates an expression for its effect, which may be an assignment. -/
def effect : Node → Action V Unit
  | .assign op t e =>
      match place? isPlace t with
      | none => failure
      | some p =>
          if op = "" then do
            let v ← eval host isPlace e
            write p v
          else do
            let old ← read p
            let v ← eval host isPlace e
            let new ← host.binary op old v
            write p new
  | n => do
      let _ ← eval host isPlace n
      return ()

/-! ## §3. Statements. -/

/-- The condition of a loop; one that was left out holds. -/
def holds (cond : Node) : Action V Bool :=
  if cond.isAbsent then pure true else host.truthy <$> eval host sourcePlace cond

mutual

/-- Runs a statement of the source. -/
def exec : Node → Action V Unit
  | .absent => pure ()
  | .stat e => effect host sourcePlace e
  | .var ds => bindAll ds
  | .block ns => execAll ns
  | .splice ns => execAll ns
  | .ifElse c yes no => do
      let v ← eval host sourcePlace c
      if host.truthy v then exec yes else exec no
  | .forLoop init cond step body => do
      exec init
      Action.iterate (holds host cond) do
        exec body
        exec step
  | n => if n.isExpression then effect host sourcePlace n else failure

/-- Runs statements one after the other. -/
def execAll : List Node → Action V Unit
  | [] => pure ()
  | n :: ns => do
      exec n
      execAll ns

/-- Runs the bindings of a `var`; one without a value does nothing. -/
def bindAll : List (String × Node) → Action V Unit
  | [] => pure ()
  | (x, init) :: ds => do
      if !init.isAbsent then
        let v ← eval host sourcePlace init
        write [x] v
      bindAll ds

end

/-! ## §4. Instructions. -/

variable (naming : Naming)

/-- Carries out the command of a leaf. -/
def perform (command : String) (code : Node) : Action V Unit :=
  match code with
  | .stat e =>
      if command = "stat" then effect host (programPlace naming) e
      else if command = "call" then do
        let v ← eval host (programPlace naming) e
        write (slot naming) v
      else failure
  | _ => failure

/-- The condition of a test. -/
def test? : Instr → Option Node
  | .leaf command c _ => if command = "test" then some c else none
  | _ => none

mutual

/-- Runs an instruction. -/
def run : Instr → Action V Unit
  | .leaf command code _ => perform host naming command code
  | .branch c yes no _ _ _ _ => do
      let v ← eval host (programPlace naming) c
      if host.truthy v then runAll yes else runAll no
  | .loop _ test step body _ _ =>
      Action.iterate (runTest test) do
        runAll body
        runAll step
  | .defun _ _ _ => failure

/-- Runs instructions one after the other. -/
def runAll : List Instr → Action V Unit
  | [] => pure ()
  | i :: rest => do
      run i
      runAll rest

/-- Runs the test of a loop.  An empty one holds; otherwise its last instruction decides. -/
def runTest : List Instr → Action V Bool
  | [] => pure true
  | i :: rest =>
      match test? i, rest with
      | some c, [] => host.truthy <$> eval host (programPlace naming) c
      | _, _ => do
          run i
          runTest rest

end

end Resumable.Meaning
