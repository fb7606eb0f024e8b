/-
  Resumable.Proofs.Meaning.Fragment — units whose meaning is kept.

  Values are made from names, literals, arrays, member accesses and operators that evaluate all
  their operands, and from calls of names.  They stand in statements of their own, in assignments
  to names, in bindings with a value, in branches and in loops without jumps.

  The names that may be used and the names that may be called are parameters: a value without calls
  is one in which no name may be called.

  Main statement: `transform_succeeds`.  A unit of such statements is transformed.
-/
import Resumable.Proofs.Walk.Success

namespace Resumable

namespace Meaning

open Program.Walk (mutates shortCircuits)

/-! ## §1. The fragment. -/

/-- An expression in which every operand is evaluated, once and from left to right. -/
inductive Value (free callable : String → Prop) : Node → Prop
  | name {x : String} (h : free x) : Value free callable (.name x)
  | num (s : String) : Value free callable (.num s)
  | string (s : String) : Value free callable (.string s)
  | atom (s : String) : Value free callable (.atom s)
  | array {es : List Node} (h : ∀ e ∈ es, Value free callable e) : Value free callable (.array es)
  | dot {b : Node} (f : String) (h : Value free callable b) : Value free callable (.dot b f)
  | sub {b i : Node} (hb : Value free callable b) (hi : Value free callable i) :
      Value free callable (.sub b i)
  | binary {op : String} {l r : Node} (hop : shortCircuits op = false)
      (hl : Value free callable l) (hr : Value free callable r) :
      Value free callable (.binary op l r)
  | unary {op : String} {e : Node} (hop : mutates op = false) (h : Value free callable e) :
      Value free callable (.unary .before op e)
  | call {f : String} {args : List Node} (hf : callable f)
      (h : ∀ a ∈ args, Value free callable a) : Value free callable (.call (.name f) args)

/-- A value, or an assignment of one to a name. -/
inductive Effect (free callable : String → Prop) : Node → Prop
  | value {n : Node} (h : Value free callable n) : Effect free callable n
  | assign {op x : String} {e : Node} (hx : free x) (h : Value free callable e) :
      Effect free callable (.assign op (.name x) e)

/-- A binding with a value.  A value that has calls does not use the name it is bound to. -/
structure Binding (free callable : String → Prop) (d : String × Node) : Prop where
  bound : free d.1
  value : Value free (fun _ => False) d.2 ∨ Value (fun y => free y ∧ y ≠ d.1) callable d.2

/-- A statement; the parts of a branch or loop may be left out. -/
inductive Stmt (free callable : String → Prop) : Node → Prop
  | stat {e : Node} (h : Effect free callable e) : Stmt free callable (.stat e)
  | effect {e : Node} (h : Effect free callable e) : Stmt free callable e
  | var {ds : List (String × Node)} (h : ∀ d ∈ ds, Binding free callable d) :
      Stmt free callable (.var ds)
  | block {ns : List Node} (h : ∀ n ∈ ns, Stmt free callable n) : Stmt free callable (.block ns)
  | splice {ns : List Node} (h : ∀ n ∈ ns, Stmt free callable n) : Stmt free callable (.splice ns)
  | ifElse {c yes no : Node} (hc : Value free callable c)
      (hyes : yes ≠ .absent → Stmt free callable yes)
      (hno : no ≠ .absent → Stmt free callable no) : Stmt free callable (.ifElse c yes no)
  | forLoop {init cond step body : Node} (hinit : init ≠ .absent → Stmt free callable init)
      (hcond : cond ≠ .absent → Value free callable cond)
      (hstep : step ≠ .absent → Effect free callable step)
      (hbody : body ≠ .absent → Stmt free callable body) :
      Stmt free callable (.forLoop init cond step body)

section

variable {free free' callable callable' : String → Prop} {n : Node}

/-- More names may be used and called. -/
theorem Value.weaken (h : Value free callable n) (hf : ∀ x, free x → free' x)
    (hc : ∀ f, callable f → callable' f) : Value free' callable' n := by
  induction h with
  | name h => exact .name (hf _ h)
  | num s => exact .num s
  | string s => exact .string s
  | atom s => exact .atom s
  | array _ ih => exact .array ih
  | dot f _ ih => exact .dot f ih
  | sub _ _ ihb ihi => exact .sub ihb ihi
  | binary hop _ _ ihl ihr => exact .binary hop ihl ihr
  | unary hop _ ih => exact .unary hop ih
  | call h _ ih => exact .call (hc _ h) ih

theorem Binding.value_free {d : String × Node} (h : Binding free callable d) :
    Value free callable d.2 := by
  rcases h.value with hv | hv
  · exact hv.weaken (fun _ hx => hx) (fun _ => False.elim)
  · exact hv.weaken (fun _ hx => hx.1) (fun _ hf => hf)

theorem Value.isExpression (h : Value free callable n) : n.isExpression = true := by
  cases h <;> rfl

theorem Effect.isExpression (h : Effect free callable n) : n.isExpression = true := by
  cases h with
  | value h => exact h.isExpression
  | assign => rfl

end

end Meaning

namespace Program.Walk

open Meaning (Value Effect Binding Stmt)

/-! ## §2. Walks that do not fail. -/

section

variable {env : Surface} {free callable : String → Prop} {n : Node}

theorem value_succeeds (h : Value free callable n) : Succeeds (expr env n) := by
  induction h with
  | name | num | string | atom =>
    intro s
    rw [expr]
    exact ⟨_, _, rfl⟩
  | array _ ih =>
    rw [expr]
    exact .bind (operands_succeeds ih) fun _ => settle_succeeds _ _
  | dot f _ ih =>
    rw [expr]
    exact .bind ih fun _ => settle_succeeds _ _
  | sub _ _ ihb ihi =>
    rw [expr]
    exact .bind ihb fun _ => .bind ihi fun _ => settle_succeeds _ _
  | @binary op l r hop _ _ ihl ihr =>
    rw [expr]
    -- the remark on operators that skip their right side is never made
    refine .bind ihl fun _ => .bind ihr fun _ => ?_
    simp only [hop, Bool.and_false, Bool.false_eq_true, if_false]
    exact settle_succeeds _ _
  | unary hop _ ih =>
    rw [expr, hop]
    exact .bind ih fun _ => settle_succeeds _ _
  | @call f args _ _ ih =>
    rw [expr]
    have hf : Succeeds (expr env (.name f)) := by
      intro s
      rw [expr]
      exact ⟨_, _, rfl⟩
    exact .inside (.bind hf fun _ => .bind (operands_succeeds ih) fun _ =>
      emitCall_succeeds _ _ _ _)

theorem effect_succeeds (h : Effect free callable n) : Succeeds (expr env n) := by
  cases h with
  | value h => exact value_succeeds h
  | assign hx h =>
    rw [expr, target]
    refine .bind ?_ fun _ => .bind (value_succeeds h) fun _ => ?_
    · intro s
      exact ⟨_, _, rfl⟩
    · dsimp only
      split
      · exact .bind (.update _) fun _ => .pure _
      · exact .pure _

/-- A statement of the fragment is walked without a failure. -/
theorem stmt_succeeds (h : Stmt free callable n) :
    Succeeds (statementOr env n (stmt env n)) := by
  induction h with
  | stat h =>
    show Succeeds (stmt env _)
    rw [stmt]
    exact statement_succeeds (effect_succeeds h)
  | effect h =>
    unfold statementOr
    rw [if_pos h.isExpression]
    exact statement_succeeds (effect_succeeds h)
  | var h =>
    show Succeeds (stmt env _)
    rw [stmt]
    exact bindings_succeeds fun d hd _ => value_succeeds (h d hd).value_free
  | block _ ih | splice _ ih =>
    show Succeeds (stmt env _)
    rw [stmt]
    exact stmts_succeeds ih
  | ifElse hc _ _ ihyes ihno =>
    show Succeeds (stmt env _)
    rw [stmt]
    exact branch_succeeds (value_succeeds hc) (fun _ => region_succeeds ihyes)
      (fun _ => region_succeeds ihno)
  | forLoop _ hcond hstep _ ihinit ihbody =>
    show Succeeds (stmt env _)
    rw [stmt]
    exact loop_succeeds (fun _ => region_succeeds ihinit) (fun h => value_succeeds (hcond h))
      (fun h => effect_succeeds (hstep h)) (fun _ => region_succeeds ihbody)

end

end Program.Walk

namespace Program

/-- A unit of the fragment is transformed. -/
theorem transform_succeeds {free callable : String → Prop} {body : List Node} (naming : Naming)
    (isAsync : String → Bool) (h : ∀ n ∈ body, Meaning.Stmt free callable n) :
    ∃ t, (transform naming isAsync (.toplevel body)).1 = .ok t :=
  transform_of_succeeds (Walk.stmts_succeeds fun n hn => Walk.stmt_succeeds (h n hn))

end Program

end Resumable
