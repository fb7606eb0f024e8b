/-
  Resumable.Proofs.Walk.Balance — every frame that is opened is closed again.

  A walk opens a frame for each region and closes it behind the region, whether the region was
  walked to its end or a node in it ended the walk.  So a walk never touches the frames below the
  one in use (`Balanced`), whatever state it starts in and however it ends.

  The walks that a frame is opened for are listed by `Framed`.  Behind each of them that frame is
  in use again, so it is never the root frame that is closed, and closing it brings back the stack
  as it was (`Encloses`).

  Main statement: `transform_balances_frames`.
-/
import Resumable.Proofs.Walk.Faults

namespace Resumable.Program

namespace Walk

variable {α β : Type} {env : Surface}

/-! ## §1. Balanced walks. -/

/-- A walk that leaves the frames below the one in use as they are, however it ends. -/
def Balanced (x : Walk α) : Prop := ∀ s, (x s).2.frames.below = s.frames.below

/-- A walk in a frame of its own: the frame can be closed behind it, however it ends, and then the
    frames are those that were there before. -/
def Encloses (x : Walk α) : Prop := ∀ s : State, ∃ list,
  (x { s with frames := s.frames.push }).2.frames.pop? = some (list, s.frames)

theorem Balanced.encloses {x : Walk α} (h : Balanced x) : Encloses x := by
  intro s
  have hbelow := h { s with frames := s.frames.push }
  unfold Frames.pop?
  rw [hbelow]
  exact ⟨_, rfl⟩

/-- A walk in a frame of its own leaves all other frames alone. -/
theorem Encloses.framed_frames {x : Walk α} (h : Encloses x) (s : State) :
    (framed x s).2.frames = s.frames := by
  obtain ⟨list, hpop⟩ := h s
  show ((x { s with frames := s.frames.push }).2.frames.pop?.getD _).2 = s.frames
  rw [hpop]
  rfl

theorem Balanced.pure (a : α) : Balanced (Pure.pure a : Walk α) := fun _ => rfl

theorem Balanced.get : Balanced (MonadState.get : Walk State) := fun _ => rfl

/-- A step that changes other things than the frames below. -/
theorem Balanced.update {f : State → State} (h : ∀ s, (f s).frames.below = s.frames.below) :
    Balanced (modify f : Walk Unit) := h

theorem Balanced.bind {x : Walk α} {f : α → Walk β} (h : Balanced x) (hf : ∀ a, Balanced (f a)) :
    Balanced (x >>= f) := by
  intro s
  show (ExceptT.bindCont f (x s).1 (x s).2).2.frames.below = _
  have hx := h s
  cases hr : (x s).1 with
  | error e =>
    -- the second walk is not begun
    exact hx
  | ok a => exact (hf a (x s).2).trans hx

theorem Balanced.inside {name : String} {x : Walk α} (h : Balanced x) :
    Balanced (Walk.inside name x) := fun s => h { s with trail := s.trail.enter name }

theorem Balanced.framed {x : Walk α} (h : Balanced x) : Balanced (Walk.framed x) :=
  fun s => congrArg Frames.below (h.encloses.framed_frames s)

theorem defer_balanced (i : Instr) : Balanced (defer i) := .update fun _ => rfl

theorem remark_balanced (r : State → Remark) : Balanced (remark r) := .update fun _ => rfl

theorem misplaced_balanced (n : Node) : Balanced (misplaced n : Walk α) := by
  refine .bind .get fun s => ?_
  dsimp only
  split <;> exact fun _ => rfl

theorem unsplit_balanced (n : Node) : Balanced (unsplit env n) := by
  refine .bind ?_ fun _ => fun _ => rfl
  unfold warn
  split
  · exact .pure _
  · exact remark_balanced _

theorem settle_balanced (v : Node) (split : Bool) : Balanced (settle v split) := by
  cases split with
  | true => exact fun _ => rfl
  | false => exact .pure _

theorem emitCall_balanced (c : Node) (async : Bool) (c' : Node) (args : List Node) :
    Balanced (emitCall env c async c' args) := by
  cases async <;> exact fun _ => rfl

/-! ## §2. Expressions. -/

mutual

theorem expr_balanced (n : Node) : Balanced (expr env n) := by
  cases n with
  | name x =>
    rw [expr]
    exact .bind .get fun _ => .pure _
  | num _ | string _ | atom _ | regexp _ _ =>
    rw [expr]
    exact .pure _
  | call c args =>
    rw [expr]
    refine .inside ?_
    dsimp only
    split
    · exact .bind (target_balanced c) fun _ => .bind (operands_balanced args) fun _ =>
        emitCall_balanced _ _ _ _
    · exact .bind (expr_balanced c) fun _ => .bind (operands_balanced args) fun _ =>
        emitCall_balanced _ _ _ _
  | new c args =>
    rw [expr]
    exact .bind (expr_balanced c) fun _ => .bind (operands_balanced args) fun _ =>
      settle_balanced _ _
  | binary op l r =>
    rw [expr]
    refine .bind (expr_balanced l) fun ⟨_, ls⟩ => .bind (expr_balanced r) fun ⟨_, rs⟩ => ?_
    dsimp only
    split
    · exact .bind (remark_balanced _) fun _ => settle_balanced _ _
    · exact settle_balanced _ _
  | unary side op e =>
    rw [expr]
    dsimp only
    split
    · exact .bind (target_balanced e) fun _ => settle_balanced _ _
    · exact .bind (expr_balanced e) fun _ => settle_balanced _ _
  | assign op t v =>
    rw [expr]
    refine .bind (target_balanced t) fun ⟨_, ts⟩ => .bind (expr_balanced v) fun ⟨_, vs⟩ => ?_
    dsimp only
    split
    · exact .bind (defer_balanced _) fun _ => .pure _
    · exact .pure _
  | dot b f =>
    rw [expr]
    exact .bind (expr_balanced b) fun _ => settle_balanced _ _
  | sub b i =>
    rw [expr]
    exact .bind (expr_balanced b) fun _ => .bind (expr_balanced i) fun _ => settle_balanced _ _
  | array es =>
    rw [expr]
    exact .bind (operands_balanced es) fun _ => settle_balanced _ _
  | object ps =>
    rw [expr]
    exact .bind (fields_balanced ps) fun _ => settle_balanced _ _
  | conditional _ _ _ | seq _ | function _ _ _ =>
    rw [expr, map_eq_pure_bind]
    exact .bind (unsplit_balanced _) fun _ => .pure _
  | _ => exact misplaced_balanced _
termination_by structural n

theorem target_balanced (t : Node) : Balanced (target env t) := by
  cases t with
  | name x =>
    rw [target]
    exact .bind .get fun _ => .pure _
  | dot b f =>
    rw [target]
    exact .bind (expr_balanced b) fun _ => .pure _
  | sub b i =>
    rw [target]
    exact .bind (expr_balanced b) fun _ => .bind (expr_balanced i) fun _ => .pure _
  | _ => exact fun _ => rfl
termination_by structural t

theorem operands_balanced (ns : List Node) : Balanced (operands env ns) := by
  cases ns with
  | nil =>
    rw [operands]
    exact .pure _
  | cons n ns =>
    rw [operands]
    exact .bind (expr_balanced n) fun _ => .bind (operands_balanced ns) fun _ => .pure _
termination_by structural ns

theorem fields_balanced (ps : List (String × Node)) : Balanced (fields env ps) := by
  cases ps with
  | nil =>
    rw [fields]
    exact .pure _
  | cons p ps =>
    obtain ⟨k, n⟩ := p
    rw [fields]
    exact .bind (expr_balanced n) fun _ => .bind (fields_balanced ps) fun _ => .pure _
termination_by structural ps

end

/-! ## §3. Statements. -/

theorem statement_balanced {x : Walk (Node × Bool)} (h : Balanced x) :
    Balanced (statement x) := by
  refine .bind h fun r => ?_
  obtain ⟨_, split⟩ := r
  cases split
  · exact .bind (defer_balanced _) fun _ => .pure _
  · exact .pure _

theorem statementOr_balanced {n : Node} {x : Walk Bool} (h : Balanced x) :
    Balanced (statementOr env n x) := by
  unfold statementOr
  split
  · exact statement_balanced (expr_balanced n)
  · exact h

theorem binding_balanced (x : String) (init : Node) : Balanced (binding env x init) := by
  refine .bind (.update fun _ => rfl) fun _ => .bind .get fun _ => ?_
  split
  · exact .bind (defer_balanced _) fun _ => .pure _
  · -- a mark flushes the frame in use and leaves the others alone
    refine .bind (.inside fun s => ?_) fun ⟨_, _, split⟩ => ?_
    · exact (Balanced.bind (expr_balanced init) fun _ => .pure _)
        { s with frames := s.frames.mark.2 }
    · cases split
      · exact .bind (defer_balanced _) fun _ => .pure _
      · exact .bind (.update fun _ => rfl) fun _ => .bind (remark_balanced _) fun _ =>
          .bind (defer_balanced _) fun _ => .pure _

theorem bindings_balanced (ds : List (String × Node)) : Balanced (bindings env ds) := by
  induction ds with
  | nil =>
    rw [bindings]
    exact .pure _
  | cons d ds ih =>
    rw [bindings]
    exact .bind (binding_balanced d.1 d.2) fun _ => .bind ih fun _ => .pure _

/-! ### Frames. -/

/-- What is walked in a region. -/
def regionBody (env : Surface) (n : Node) (walk : Walk Bool) : Walk Bool :=
  if n.isAbsent then pure false else statementOr env n walk

/-- What is walked for the condition of a loop. -/
def testBody (env : Surface) (cond : Node) : Walk (Node × Bool) := do
  if cond.isAbsent then return (.absent, false)
  let (c, split) ← inside "cond" (expr env cond)
  defer (.leaf "test" c false)
  return (c, split)

/-- What is walked for the step of a loop. -/
def stepBody (env : Surface) (step : Node) : Walk (Node × Bool) := do
  if step.isAbsent then return (.absent, false)
  let (e, split) ← inside "step" (expr env step)
  if !split then defer (.stat e)
  return (e, split)

/-- The walks that a frame is opened for. -/
inductive Framed (env : Surface) : {α : Type} → Walk α → Prop
  | condition (c : Node) : Framed env (inside "cond" (expr env c))
  | region (n : Node) : Framed env (regionBody env n (stmt env n))
  | test (c : Node) : Framed env (testBody env c)
  | step (e : Node) : Framed env (stepBody env e)
  | declaration (ns : List Node) : Framed env (stmts env ns)

theorem region_eq (name : String) (n : Node) (x : Walk Bool) :
    region env name n x = inside name (framed (regionBody env n x)) := rfl

theorem loopTest_eq (cond : Node) : loopTest env cond = framed (testBody env cond) := rfl

theorem loopStep_eq (step : Node) : loopStep env step = framed (stepBody env step) := rfl

theorem regionBody_balanced {n : Node} {x : Walk Bool} (h : Balanced x) :
    Balanced (regionBody env n x) := by
  unfold regionBody
  split
  · exact .pure _
  · exact statementOr_balanced h

theorem testBody_balanced (cond : Node) : Balanced (testBody env cond) := by
  unfold testBody
  split
  · exact .pure _
  · exact .bind (.inside (expr_balanced cond)) fun _ => .bind (defer_balanced _) fun _ => .pure _

theorem stepBody_balanced (step : Node) : Balanced (stepBody env step) := by
  unfold stepBody
  split
  · exact .pure _
  · refine .bind (.inside (expr_balanced step)) fun r => ?_
    obtain ⟨_, split⟩ := r
    cases split
    · exact .bind (defer_balanced _) fun _ => .pure _
    · exact .pure _

/-- A region leaves all frames as they are, the one in use included. -/
theorem region_frames {name : String} {n : Node} {x : Walk Bool} (h : Balanced x) (s : State) :
    (region env name n x s).2.frames = s.frames := by
  have hbody : Balanced (regionBody env n x) := regionBody_balanced h
  rw [region_eq]
  exact hbody.encloses.framed_frames { s with trail := s.trail.enter name }

theorem region_balanced {name : String} {n : Node} {x : Walk Bool} (h : Balanced x) :
    Balanced (region env name n x) := fun s => congrArg Frames.below (region_frames h s)

theorem branch_balanced {c yes no : Node} {x y : Walk Bool} (hx : Balanced x) (hy : Balanced y) :
    Balanced (branch env c yes no x y) := by
  have hcondition : Balanced (condition env c) :=
    .bind (.framed (.inside (expr_balanced c))) fun _ => .bind (.update fun _ => rfl) fun _ =>
      .pure _
  have htemp (split : Bool) : Balanced (resultTemp split) := .bind .get fun _ => .pure _
  exact .inside (.bind hcondition fun _ => .bind (region_balanced hx) fun _ =>
    .bind (htemp _) fun _ => .bind (region_balanced hy) fun _ => .bind (htemp _) fun _ =>
    .bind (remark_balanced _) fun _ => .bind (defer_balanced _) fun _ => .pure _)

theorem loop_balanced {init cond step body : Node} {x y : Walk Bool} (hx : Balanced x)
    (hy : Balanced y) : Balanced (loop env init cond step body x y) := by
  have hinit : Balanced (loopInit env init x) := by
    unfold loopInit
    split
    · exact .pure _
    · exact .bind (region_balanced hx) fun _ => .bind (.update fun _ => rfl) fun _ => .pure _
  have htest : Balanced (loopTest env cond) := by
    rw [loopTest_eq]
    exact (testBody_balanced cond).framed
  have hstep : Balanced (loopStep env step) := by
    rw [loopStep_eq]
    exact (stepBody_balanced step).framed
  exact .inside (.bind hinit fun _ => .bind htest fun _ => .bind hstep fun _ =>
    .bind (region_balanced hy) fun _ => .bind (defer_balanced _) fun _ => .pure _)

theorem declaration_balanced {name : String} {params : List String} {x : Walk Bool}
    (h : Balanced x) : Balanced (declaration name params x) :=
  .inside (.bind (.framed h) fun _ => .bind (defer_balanced _) fun _ => .pure _)

mutual

theorem stmt_balanced (n : Node) : Balanced (stmt env n) := by
  cases n with
  | stat e =>
    rw [stmt]
    exact statement_balanced (expr_balanced e)
  | var ds =>
    rw [stmt]
    exact bindings_balanced ds
  | block ns | splice ns =>
    rw [stmt]
    exact stmts_balanced ns
  | ifElse c yes no =>
    rw [stmt]
    exact branch_balanced (stmt_balanced yes) (stmt_balanced no)
  | forLoop init cond step body =>
    rw [stmt]
    exact loop_balanced (stmt_balanced init) (stmt_balanced body)
  | defun name params ns =>
    rw [stmt]
    exact declaration_balanced (stmts_balanced ns)
  | breakTo _ | continueTo _ | debugger =>
    rw [stmt]
    exact .bind (defer_balanced _) fun _ => .pure _
  | label _ _ | whileLoop _ _ | doLoop _ _ | tryCatch _ _ _ | throw _ | switch _ _ | forIn _ _ _
  | withObject _ _ | ret _ | const _ =>
    rw [stmt]
    exact .bind (unsplit_balanced _) fun _ => .bind (defer_balanced _) fun _ => .pure _
  | _ => exact misplaced_balanced _
termination_by structural n

theorem stmts_balanced (ns : List Node) : Balanced (stmts env ns) := by
  cases ns with
  | nil =>
    rw [stmts]
    exact .pure _
  | cons n ns =>
    rw [stmts]
    exact .bind (statementOr_balanced (stmt_balanced n)) fun _ => .bind (stmts_balanced ns) fun _ =>
      .pure _
termination_by structural ns

end

theorem Framed.encloses {x : Walk α} (h : Framed env x) : Encloses x := by
  cases h with
  | condition c => exact (expr_balanced c).inside.encloses
  | region n => exact (regionBody_balanced (stmt_balanced n)).encloses
  | test c => exact (testBody_balanced c).encloses
  | step e => exact (stepBody_balanced e).encloses
  | declaration ns => exact (stmts_balanced ns).encloses

end Walk

/-! ## §4. Whole units. -/

/-- The report on frames that are still open behind a walk. -/
def leftOpen (depth : Nat) : Failure :=
  .only { phase := .transform, category := .invalidData
          detail := "unbalanced frame stack (depth " ++ toString depth ++ ")" }

theorem walkUnit_frames (naming : Naming) (isAsync : String → Bool) (body : List Node) :
    (walkUnit naming isAsync body).2.frames.below = [] := by
  have hstmts : Walk.Balanced (Walk.stmts (naming.surface isAsync) body) := Walk.stmts_balanced body
  exact hstmts.inside (State.start naming body)

/-- Reports on data that breaks a rule are about frames only. -/
theorem ne_leftOpen {e : Failure} (h : e.isA .transform .invalidData = false) (depth : Nat) :
    e ≠ leftOpen depth := by
  rintro rfl
  cases h

theorem Fault.failure_isA (f : Fault) (path : List String) :
    (f.failure path).isA .transform .invalidData = false := by
  cases f with
  | misplaced n =>
    unfold failure
    dsimp only
    split <;> rfl
  | target n => rfl

/-- Whatever a walk starts from and however it ends, it leaves the frames below the one in use as
    they are, and a region leaves all of them so.  No walk in a frame of its own closes that frame:
    it can be closed behind the walk, and then the frames are those from before.  So after the walk
    of a unit the root frame is the only one, and no unit is refused for frames that are still
    open. -/
theorem transform_balances_frames (naming : Naming) (isAsync : String → Bool) :
    (∀ env : Surface,
      (∀ n, Walk.Balanced (Walk.expr env n) ∧ Walk.Balanced (Walk.stmt env n)) ∧
      (∀ name n s, (Walk.region env name n (Walk.stmt env n) s).2.frames = s.frames) ∧
      (∀ c yes no, Walk.Balanced
        (Walk.branch env c yes no (Walk.stmt env yes) (Walk.stmt env no))) ∧
      (∀ init cond step body, Walk.Balanced
        (Walk.loop env init cond step body (Walk.stmt env init) (Walk.stmt env body))) ∧
      (∀ name params ns, Walk.Balanced (Walk.declaration name params (Walk.stmts env ns))) ∧
      ∀ (α : Type) (x : Walk α), Walk.Framed env x → Walk.Encloses x) ∧
    (∀ body, (walkUnit naming isAsync body).2.frames.depth = 1) ∧
    ∀ unit depth, (transform naming isAsync unit).1 ≠ .error (leftOpen depth) := by
  refine ⟨fun env => ?_, fun body => ?_, fun unit depth h => ?_⟩
  · have hstmt (n : Node) : Walk.Balanced (Walk.stmt env n) := Walk.stmt_balanced n
    refine ⟨fun n => ⟨Walk.expr_balanced n, hstmt n⟩, fun _ n => Walk.region_frames (hstmt n),
      fun _ yes no => Walk.branch_balanced (hstmt yes) (hstmt no),
      fun init _ _ body => Walk.loop_balanced (hstmt init) (hstmt body),
      fun _ _ ns => Walk.declaration_balanced (Walk.stmts_balanced ns),
      fun _ _ hframed => hframed.encloses⟩
  · unfold Frames.depth
    rw [walkUnit_frames]
    rfl
  · cases unit with
    | toplevel body =>
      -- a walk fails only with a report on a fault, and then nothing else is looked at
      have hends := transform_ends naming isAsync body
      split at hends
      · obtain ⟨t, ht⟩ := hends
        cases ht.symm.trans h
      · next f _ _ =>
        obtain ⟨path, hf⟩ := hends
        exact ne_leftOpen (f.failure_isA path) depth (Except.error.inj (hf.symm.trans h))
    | _ => exact ne_leftOpen rfl depth (Except.error.inj h)

/-- A walk that ends three frames deep, at a unit inside a function declaration in the body of a
    loop in a branch: `if (c) for (;;) { function f() { <unit> } }`. -/
theorem transform_balances_frames_of_unit :
    let env : Surface := Naming.surface {} (fun _ => false)
    let inner : List Node := [.toplevel []]
    let body : List Node := [.ifElse (.name "c")
      (.forLoop .absent .absent .absent (.block [.defun "f" [] inner])) .absent]
    (∃ e, (transform {} (fun _ => false) (.toplevel body)).1 = .error e) ∧
      Walk.Framed env (Walk.stmts env inner) ∧ Walk.Encloses (Walk.stmts env inner) ∧
      (walkUnit {} (fun _ => false) body).2.frames.depth = 1 := by
  intro env inner body
  obtain ⟨hwalks, hdepth, -⟩ := transform_balances_frames {} fun _ => false
  obtain ⟨-, -, -, -, -, hframed⟩ := hwalks env
  have hfails : ∃ e, (transform {} (fun _ => false) (.toplevel body)).1 = .error e :=
    exists_of_not_isOk (by decide +kernel)
  exact ⟨hfails, .declaration inner, hframed _ _ (.declaration inner), hdepth body⟩

end Resumable.Program
