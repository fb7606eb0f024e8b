/-
  Resumable.Proofs.Walk.Faults — what ends a walk.

  A walk looks at a tree from left to right and stops at the first node that it can do nothing
  with: one that produces no value where a value is asked for, a unit where a statement is, or
  something that is assigned to and cannot be.  `faults` lists all such nodes in the order of the
  walk; what is copied as a whole has none.

  `Ends` compares a walk with such a list.  It goes well from every state if the list is empty, and
  fails from every state with a report on the first fault otherwise.  Lists are put together as the
  walks are, so that each construct has one lemma.

  Main statement: `transform_ends`.
-/
import Resumable.Proofs.Walk.Success

namespace Resumable

namespace Program

/-! ## §1. Faults. -/

/-- A node that a walk ends at. -/
inductive Fault where
  /-- A node of a kind that nothing is known of at its place, or none. -/
  | misplaced (n : Node)
  /-- Something that is assigned to. -/
  | target (n : Node)

namespace Fault

/-- The node. -/
def node : Fault → Node
  | misplaced n | target n => n

/-- The report on a fault. -/
def failure (path : List String) : Fault → Failure
  | misplaced n =>
      if n.isAbsent then .invalidNode .transform path "nil" "missing node"
      else .unknownNode .transform path n.tag
  | target n => .invalidTarget path n.tag

end Fault

end Program

namespace Node

open Program (Fault)
open Program.Walk (isTarget)

/-- What is wrong with something that is assigned to, given the faults it has as an expression. -/
def targetFaults (t : Node) (faults : List Fault) : List Fault :=
  if isTarget t then faults else [.target t]

mutual

/-- The faults of an expression, in the order of a walk. -/
def exprFaults : Node → List Fault
  | name _ | num _ | string _ | atom _ | regexp _ _ => []
  | conditional _ _ _ | seq _ | function _ _ _ => []
  | call c as => exprFaults c ++ operandFaults as
  | new c as => exprFaults c ++ operandFaults as
  | binary _ l r => exprFaults l ++ exprFaults r
  | unary _ _ e => exprFaults e
  | assign _ t v => targetFaults t (exprFaults t) ++ exprFaults v
  | dot b _ => exprFaults b
  | sub b i => exprFaults b ++ exprFaults i
  | array es => operandFaults es
  | object ps => fieldFaults ps
  | n => [.misplaced n]

/-- The faults of operands. -/
def operandFaults : List Node → List Fault
  | [] => []
  | e :: rest => exprFaults e ++ operandFaults rest

/-- The faults of the values of an object literal. -/
def fieldFaults : List (String × Node) → List Fault
  | [] => []
  | (_, e) :: rest => exprFaults e ++ fieldFaults rest

end

/-- The faults of a part that may be left out. -/
def unlessAbsent (n : Node) (faults : List Fault) : List Fault :=
  if n.isAbsent then [] else faults

/-- The faults of bindings, of which each may lack a value. -/
def bindingFaults (ds : List (String × Node)) : List Fault :=
  ds.flatMap fun d => unlessAbsent d.2 (exprFaults d.2)

mutual

/-- The faults of a statement, or of an expression that stands for one. -/
def faults : Node → List Fault
  | stat e => exprFaults e
  | var ds => bindingFaults ds
  | block b => faultsAll b
  | splice ns => faultsAll ns
  | ifElse c y n => exprFaults c ++ unlessAbsent y (faults y) ++ unlessAbsent n (faults n)
  | forLoop i c s b =>
      unlessAbsent i (faults i) ++ unlessAbsent c (exprFaults c) ++
        unlessAbsent s (exprFaults s) ++ unlessAbsent b (faults b)
  | defun _ _ b => faultsAll b
  | breakTo _ | continueTo _ | debugger => []
  | label _ _ | whileLoop _ _ | doLoop _ _ | tryCatch _ _ _ | throw _ | switch _ _
  | forIn _ _ _ | withObject _ _ | ret _ | const _ => []
  | n => exprFaults n

/-- The faults of a list of statements. -/
def faultsAll : List Node → List Fault
  | [] => []
  | n :: rest => faults n ++ faultsAll rest

end

end Node

namespace Program

namespace Walk

open Node (exprFaults targetFaults operandFaults fieldFaults unlessAbsent bindingFaults faults
  faultsAll)

/-! ## §2. Walks and their faults. -/

/-- A walk that goes well from every state, or fails from every state with a report on the first
    of some faults. -/
def Ends {α : Type} (fs : List Fault) (x : Walk α) : Prop := ∀ s,
  match fs with
  | [] => ∃ a s', x s = (.ok a, s')
  | f :: _ => ∃ path s', x s = (.error (f.failure path), s')

section

variable {α β : Type} {fs gs : List Fault}

theorem Succeeds.ends {x : Walk α} (h : Succeeds x) : Ends [] x := h

theorem bind_error {x : Walk α} {f : α → Walk β} {e : Failure} {s s' : State}
    (h : x s = (.error e, s')) : (x >>= f) s = (.error e, s') := by
  show (ExceptT.bindCont f (x s).1) (x s).2 = _
  rw [h]
  rfl

/-- Walks one after the other have the faults of both. -/
theorem Ends.bind {x : Walk α} {f : α → Walk β} (h : Ends fs x) (hf : ∀ a, Ends gs (f a)) :
    Ends (fs ++ gs) (x >>= f) := by
  intro s
  cases fs with
  | cons fault fs =>
    -- the second walk is not begun
    obtain ⟨path, s', hx⟩ := h s
    exact ⟨path, s', bind_error hx⟩
  | nil =>
    obtain ⟨a, s₁, hx⟩ := h s
    cases gs with
    | nil =>
      obtain ⟨b, s₂, hb⟩ := hf a s₁
      exact ⟨b, s₂, bind_ok.mpr ⟨a, s₁, hx, hb⟩⟩
    | cons fault gs =>
      obtain ⟨path, s₂, hb⟩ := hf a s₁
      refine ⟨path, s₂, ?_⟩
      show (ExceptT.bindCont f (x s).1) (x s).2 = _
      rw [hx]
      exact hb

/-- What follows goes well in any case. -/
theorem Ends.andThen {x : Walk α} {f : α → Walk β} (h : Ends fs x) (hf : ∀ a, Succeeds (f a)) :
    Ends fs (x >>= f) := by
  have hboth : Ends (fs ++ []) (x >>= f) := h.bind hf
  rwa [List.append_nil] at hboth

/-- What comes before goes well in any case. -/
theorem Succeeds.before {x : Walk α} {f : α → Walk β} (h : Succeeds x) (hf : ∀ a, Ends gs (f a)) :
    Ends gs (x >>= f) :=
  h.ends.bind hf

theorem Ends.inside {name : String} {x : Walk α} (h : Ends fs x) :
    Ends fs (Walk.inside name x) := by
  intro s
  cases fs with
  | nil =>
    obtain ⟨a, s₁, hx⟩ := h { s with trail := s.trail.enter name }
    exact ⟨a, _, inside_ok.mpr ⟨s₁, hx, rfl⟩⟩
  | cons fault fs =>
    obtain ⟨path, s₁, hx⟩ := h { s with trail := s.trail.enter name }
    refine ⟨path, { s₁ with trail := s₁.trail.leave }, ?_⟩
    unfold Walk.inside
    rw [hx]

theorem Ends.framed {x : Walk α} (h : Ends fs x) : Ends fs (Walk.framed x) := by
  intro s
  cases fs with
  | nil =>
    obtain ⟨a, s₁, hx⟩ := h { s with frames := s.frames.push }
    exact ⟨(a, _), _, framed_ok.mpr ⟨s₁, hx, rfl, rfl⟩⟩
  | cons fault fs =>
    obtain ⟨path, s₁, hx⟩ := h { s with frames := s.frames.push }
    refine ⟨path, { s₁ with frames := (s₁.frames.pop?.getD ([], s₁.frames)).2 }, ?_⟩
    unfold Walk.framed
    rw [hx]
    rfl

theorem misplaced_ends (n : Node) : Ends [.misplaced n] (misplaced n : Walk α) := by
  intro s
  refine ⟨s.trail.here, s, ?_⟩
  unfold misplaced
  dsimp only [Fault.failure]
  by_cases hn : n.isAbsent = true
  · simp only [if_pos hn]
    rfl
  · simp only [if_neg hn]
    rfl

/-- A part that may be left out. -/
theorem unlessAbsent_ends {n : Node} {x y : Walk α} (hx : Succeeds x) (hy : Ends fs y) :
    Ends (unlessAbsent n fs) (if n.isAbsent then x else y) := by
  unfold unlessAbsent
  split
  · exact hx
  · exact hy

end

/-! ## §3. Expressions. -/

section

variable {env : Surface}

theorem targetFaults_of_isTarget {t : Node} {fs : List Fault} (h : isTarget t = true) :
    targetFaults t fs = fs := if_pos h

mutual

theorem expr_ends (n : Node) : Ends (exprFaults n) (expr env n) := by
  cases n with
  | name x =>
    rw [expr]
    exact Succeeds.bind .get fun _ => .pure _
  | num _ | string _ | atom _ | regexp _ _ =>
    rw [expr]
    exact Succeeds.pure _
  | call c args =>
    rw [expr, exprFaults]
    refine .inside ?_
    dsimp only
    split
    · next hm =>
      -- a member is walked as a target, which it is, so it has the faults of an expression
      have hc : Ends (targetFaults c (exprFaults c)) (target env c) := target_ends c
      rw [targetFaults_of_isTarget (isTarget_of_isMember hm)] at hc
      exact hc.bind fun _ => (operands_ends args).andThen fun _ => emitCall_succeeds _ _ _ _
    · exact (expr_ends c).bind fun _ =>
        (operands_ends args).andThen fun _ => emitCall_succeeds _ _ _ _
  | new c args =>
    rw [expr, exprFaults]
    exact (expr_ends c).bind fun _ => (operands_ends args).andThen fun _ => settle_succeeds _ _
  | binary op l r =>
    rw [expr, exprFaults]
    refine (expr_ends l).bind fun ⟨_, ls⟩ => (expr_ends r).andThen fun ⟨_, rs⟩ => ?_
    dsimp only
    split
    · exact Succeeds.bind (.update _) fun _ => settle_succeeds _ _
    · exact settle_succeeds _ _
  | unary side op e =>
    rw [expr, exprFaults]
    dsimp only
    split
    · next hm =>
      have he : Ends (targetFaults e (exprFaults e)) (target env e) := target_ends e
      rw [targetFaults_of_isTarget (Bool.and_eq_true_iff.mp hm).2] at he
      exact he.andThen fun _ => settle_succeeds _ _
    · exact (expr_ends e).andThen fun _ => settle_succeeds _ _
  | assign op t v =>
    rw [expr, exprFaults]
    refine (target_ends t).bind fun ⟨_, ts⟩ => (expr_ends v).andThen fun ⟨_, vs⟩ => ?_
    dsimp only
    split
    · exact .bind (.update _) fun _ => .pure _
    · exact .pure _
  | dot b f =>
    rw [expr, exprFaults]
    exact (expr_ends b).andThen fun _ => settle_succeeds _ _
  | sub b i =>
    rw [expr, exprFaults]
    exact (expr_ends b).bind fun _ => (expr_ends i).andThen fun _ => settle_succeeds _ _
  | array es =>
    rw [expr, exprFaults]
    exact (operands_ends es).andThen fun _ => settle_succeeds _ _
  | object ps =>
    rw [expr, exprFaults]
    exact (fields_ends ps).andThen fun _ => settle_succeeds _ _
  | conditional _ _ _ | seq _ | function _ _ _ =>
    rw [expr, map_eq_pure_bind]
    exact Succeeds.bind (unsplit_succeeds _) fun _ => .pure _
  | _ => exact misplaced_ends _
termination_by structural n

theorem target_ends (t : Node) : Ends (targetFaults t (exprFaults t)) (target env t) := by
  cases t with
  | name x =>
    rw [target]
    exact Succeeds.bind .get fun _ => .pure _
  | dot b f =>
    rw [target, targetFaults_of_isTarget rfl, exprFaults]
    exact (expr_ends b).andThen fun _ => .pure _
  | sub b i =>
    rw [target, targetFaults_of_isTarget rfl, exprFaults]
    exact (expr_ends b).bind fun _ => (expr_ends i).andThen fun _ => .pure _
  | _ => exact fun s => ⟨s.trail.here, s, rfl⟩
termination_by structural t

theorem operands_ends (ns : List Node) : Ends (operandFaults ns) (operands env ns) := by
  cases ns with
  | nil =>
    rw [operands]
    exact Succeeds.pure _
  | cons n ns =>
    rw [operands, operandFaults]
    exact (expr_ends n).bind fun _ => (operands_ends ns).andThen fun _ => .pure _
termination_by structural ns

theorem fields_ends (ps : List (String × Node)) : Ends (fieldFaults ps) (fields env ps) := by
  cases ps with
  | nil =>
    rw [fields]
    exact Succeeds.pure _
  | cons p ps =>
    obtain ⟨k, n⟩ := p
    rw [fields, fieldFaults]
    exact (expr_ends n).bind fun _ => (fields_ends ps).andThen fun _ => .pure _
termination_by structural ps

end

/-! ## §4. Statements. -/

variable {x y : Walk Bool} {n : Node} {fs gs : List Fault}

theorem statement_ends {x : Walk (Node × Bool)} (h : Ends fs x) : Ends fs (statement x) := by
  refine h.andThen fun r => ?_
  obtain ⟨_, split⟩ := r
  cases split
  · exact .bind (.update _) fun _ => .pure _
  · exact .pure _

theorem binding_ends (x : String) (init : Node) :
    Ends (unlessAbsent init (exprFaults init)) (binding env x init) := by
  refine Succeeds.before (.update _) fun _ => Succeeds.before .get fun _ => ?_
  refine unlessAbsent_ends (.bind (.update _) fun _ => .pure _) ?_
  refine Ends.andThen (.inside ?_) fun ⟨_, _, split⟩ => ?_
  · exact Succeeds.before .get fun _ => Succeeds.before (.update _) fun _ =>
      (expr_ends init).andThen fun _ => .pure _
  · cases split
    · exact .bind (.update _) fun _ => .pure _
    · exact .bind (.update _) fun _ => .bind (.update _) fun _ => .bind (.update _) fun _ =>
        .pure _

theorem bindings_ends (ds : List (String × Node)) : Ends (bindingFaults ds) (bindings env ds) := by
  induction ds with
  | nil =>
    rw [bindings]
    exact Succeeds.pure _
  | cons d ds ih =>
    rw [bindings]
    exact (binding_ends d.1 d.2).bind fun _ => ih.andThen fun _ => .pure _

theorem region_ends {name : String} (h : Ends fs (statementOr env n x)) :
    Ends (unlessAbsent n fs) (region env name n x) :=
  .inside (.framed (unlessAbsent_ends (.pure _) h))

theorem branch_ends {c yes no : Node} (hyes : ∀ name, Ends fs (region env name yes x))
    (hno : ∀ name, Ends gs (region env name no y)) :
    Ends (exprFaults c ++ fs ++ gs) (branch env c yes no x y) := by
  have hcondition : Ends (exprFaults c) (condition env c) :=
    Ends.andThen (.framed (.inside (expr_ends c))) fun _ => .bind (.update _) fun _ => .pure _
  have htemp (split : Bool) : Succeeds (resultTemp split) := .bind .get fun _ => .pure _
  rw [List.append_assoc]
  refine .inside (hcondition.bind fun _ => (hyes _).bind fun _ => (htemp _).before fun _ => ?_)
  exact (hno _).andThen fun _ => .bind (htemp _) fun _ => .bind (.update _) fun _ =>
    .bind (.update _) fun _ => .pure _

theorem loopInit_ends {init : Node}
    (h : ∀ name, Ends (unlessAbsent init fs) (region env name init x)) :
    Ends (unlessAbsent init fs) (loopInit env init x) := by
  unfold loopInit
  split
  · next ha =>
    rw [unlessAbsent, if_pos ha]
    exact Succeeds.pure _
  · exact (h _).andThen fun _ => .bind (.update _) fun _ => .pure _

theorem loopTest_ends (cond : Node) :
    Ends (unlessAbsent cond (exprFaults cond)) (loopTest env cond) := by
  refine .framed (unlessAbsent_ends (.pure _) ?_)
  exact Ends.andThen (.inside (expr_ends cond)) fun _ => .bind (.update _) fun _ => .pure _

theorem loopStep_ends (step : Node) :
    Ends (unlessAbsent step (exprFaults step)) (loopStep env step) := by
  refine .framed (unlessAbsent_ends (.pure _) ?_)
  refine Ends.andThen (.inside (expr_ends step)) fun r => ?_
  obtain ⟨_, split⟩ := r
  cases split
  · exact .bind (.update _) fun _ => .pure _
  · exact .pure _

theorem loop_ends {init cond step body : Node}
    (hinit : ∀ name, Ends (unlessAbsent init fs) (region env name init x))
    (hbody : ∀ name, Ends gs (region env name body y)) :
    Ends (unlessAbsent init fs ++ unlessAbsent cond (exprFaults cond) ++
      unlessAbsent step (exprFaults step) ++ gs) (loop env init cond step body x y) := by
  rw [List.append_assoc, List.append_assoc]
  exact .inside ((loopInit_ends hinit).bind fun _ => (loopTest_ends cond).bind fun _ =>
    (loopStep_ends step).bind fun _ => (hbody _).andThen fun _ => .bind (.update _) fun _ =>
    .pure _)

/-- Expressions are walked as such where statements are. -/
theorem statementOr_ends (h : n.isExpression = false → Ends (faults n) x) :
    Ends (faults n) (statementOr env n x) := by
  unfold statementOr
  split
  · next he =>
    have hfaults : faults n = exprFaults n := by
      cases n <;> first | rfl | cases he
    rw [hfaults]
    exact statement_ends (expr_ends n)
  · next he => exact h (Bool.eq_false_iff.mpr he)

mutual

theorem stmt_ends (n : Node) (he : n.isExpression = false) : Ends (faults n) (stmt env n) := by
  cases n with
  | stat e =>
    rw [stmt, faults]
    exact statement_ends (expr_ends e)
  | var ds =>
    rw [stmt, faults]
    exact bindings_ends ds
  | block ns | splice ns =>
    rw [stmt, faults]
    exact stmts_ends ns
  | ifElse c yes no =>
    rw [stmt, faults]
    exact branch_ends (fun _ => region_ends (statementOr_ends (stmt_ends yes)))
      fun _ => region_ends (statementOr_ends (stmt_ends no))
  | forLoop init cond step body =>
    rw [stmt, faults]
    exact loop_ends (fun _ => region_ends (statementOr_ends (stmt_ends init)))
      fun _ => region_ends (statementOr_ends (stmt_ends body))
  | defun name params ns =>
    rw [stmt, faults]
    exact .inside (Ends.andThen (.framed (stmts_ends ns)) fun _ => .bind (.update _) fun _ =>
      .pure _)
  | breakTo _ | continueTo _ | debugger =>
    rw [stmt]
    exact Succeeds.bind (.update _) fun _ => .pure _
  | label _ _ | whileLoop _ _ | doLoop _ _ | tryCatch _ _ _ | throw _ | switch _ _ | forIn _ _ _
  | withObject _ _ | ret _ | const _ =>
    rw [stmt]
    exact Succeeds.bind (unsplit_succeeds _) fun _ => .bind (.update _) fun _ => .pure _
  | absent | toplevel _ => exact misplaced_ends _
  | unary side _ _ => cases side <;> cases he
  | _ => cases he
termination_by structural n

theorem stmts_ends (ns : List Node) : Ends (faultsAll ns) (stmts env ns) := by
  cases ns with
  | nil =>
    rw [stmts]
    exact Succeeds.pure _
  | cons n ns =>
    rw [stmts, faultsAll]
    exact (statementOr_ends (stmt_ends n)).bind fun _ => (stmts_ends ns).andThen fun _ => .pure _
termination_by structural ns

end

end

end Walk

/-! ## §5. Whole units. -/

/-- A unit without faults is transformed.  One with faults is not, and the failure is the report on
    the first of them. -/
theorem transform_ends (naming : Naming) (isAsync : String → Bool) (body : List Node) :
    match Node.faultsAll body with
    | [] => ∃ t, (transform naming isAsync (.toplevel body)).1 = .ok t
    | f :: _ =>
      ∃ path, (transform naming isAsync (.toplevel body)).1 = .error (f.failure path) := by
  have hwalk : Walk.Ends (Node.faultsAll body) (Walk.stmts (naming.surface isAsync) body) :=
    Walk.stmts_ends body
  cases hfaults : Node.faultsAll body with
  | nil =>
    rw [hfaults] at hwalk
    exact transform_of_succeeds hwalk
  | cons f fs =>
    rw [hfaults] at hwalk
    have hunit : Walk.Ends (f :: fs) (Walk.inside "toplevel" _) := hwalk.inside
    obtain ⟨path, s, hw⟩ := hunit (State.start naming body)
    refine ⟨path, ?_⟩
    simp only [transform, transformBody, show walkUnit naming isAsync body = _ from hw]

end Program

end Resumable
