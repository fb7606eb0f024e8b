/-
  Resumable.Proofs.Splices.Walking — a tree is walked like what it dissolves into.

  A walk goes through the nodes of a splice in the frame and at the place of the list that the
  splice stands in, so that walking a list and walking what it dissolves into take the same steps.
  `Mirrors f x y` says of two walks that from a state and from what it dissolves into they come to
  the same up to dissolving: to values of which `f` gives the second from the first, or to the same
  failure, and to states with the same scope, trail, remarks and figures.

  There is one lemma for each step; whatever is put together from steps with `bind` mirrors if its
  parts do.

  Main statement: `stmts_mirrors`.
-/
import Resumable.Proofs.Splices.Copying
import Resumable.Proofs.Splices.Instructions
import Resumable.Proofs.Splices.Searching

namespace Resumable.Program

open Node (dissolved dissolvedAll dissolvedEach dissolvedFields)

/-- There is nothing to dissolve in what stands for the value that the runtime returned. -/
def Surface.Dissolved (env : Surface) : Prop := env.returnValue.dissolved = env.returnValue

/-- A state in which the payloads of all instructions are dissolved. -/
def State.dissolved (s : State) : State := { s with frames := s.frames.map Instr.dissolved }

namespace Walk

/-! ## §1. Walks side by side. -/

/-- The second walk comes from a dissolved state to what the first one comes to from the state,
    dissolved, with `f` for its value. -/
def Mirrors {α β : Type} (f : α → β) (x : Walk α) (y : Walk β) : Prop :=
  ∀ s : State, y s.dissolved = ((x s).1.map f, (x s).2.dissolved)

section

variable {α β γ δ : Type} {f : α → β} {g : γ → δ} {x : Walk α} {y : Walk β}

theorem Mirrors.pure {a : α} {b : β} (h : f a = b) : Mirrors f (Pure.pure a) (Pure.pure b) := by
  subst h
  exact fun _ => rfl

theorem Mirrors.bind {k : α → Walk γ} {l : β → Walk δ} (h : Mirrors f x y)
    (hk : ∀ a, Mirrors g (k a) (l (f a))) : Mirrors g (x >>= k) (y >>= l) := by
  intro s
  show (ExceptT.bindCont l (y s.dissolved).1) (y s.dissolved).2 =
    (((ExceptT.bindCont k (x s).1) (x s).2).1.map g,
      ((ExceptT.bindCont k (x s).1) (x s).2).2.dissolved)
  rw [h s]
  generalize x s = out
  obtain ⟨r, s'⟩ := out
  cases r with
  | ok a => exact hk a s'
  | error e => rfl

theorem Mirrors.map {k : α → γ} {l : β → δ} (h : Mirrors f x y) (hk : ∀ a, g (k a) = l (f a)) :
    Mirrors g (k <$> x) (l <$> y) := by
  rw [map_eq_pure_bind, map_eq_pure_bind]
  exact h.bind fun a => .pure (hk a)

theorem Mirrors.get : Mirrors State.dissolved (MonadState.get : Walk State) MonadState.get :=
  fun _ => rfl

theorem Mirrors.update {h k : State → State} (hk : ∀ s, k s.dissolved = (h s).dissolved) :
    Mirrors id (modify h : Walk Unit) (modify k) := by
  intro s
  show (Except.ok (), k s.dissolved) = (Except.ok (), (h s).dissolved)
  rw [hk]

theorem Mirrors.inside (name : String) (h : Mirrors f x y) :
    Mirrors f (Walk.inside name x) (Walk.inside name y) := by
  intro s
  have body : y { s.dissolved with trail := s.dissolved.trail.enter name } = _ :=
    h { s with trail := s.trail.enter name }
  unfold Walk.inside
  rw [body]
  rfl

/-- What is collected in a frame of its own is dissolved with it. -/
theorem Mirrors.framed (h : Mirrors f x y) :
    Mirrors (Prod.map f Instr.dissolvedAll) (Walk.framed x) (Walk.framed y) := by
  intro s
  have body : y { s.dissolved with frames := s.dissolved.frames.push } = _ :=
    h { s with frames := s.frames.push }
  unfold Walk.framed
  rw [body]
  generalize x { s with frames := s.frames.push } = out
  obtain ⟨r, s'⟩ := out
  have popped : s'.dissolved.frames.pop? =
      s'.frames.pop?.map (fun p => (p.1.map Instr.dissolved, p.2.map Instr.dissolved)) :=
    Frames.pop?_map _ _
  simp only [popped]
  cases s'.frames.pop? with
  | none => cases r <;> rfl
  | some p =>
    cases r with
    | error e => rfl
    | ok a =>
      simp only [Option.map_some, Option.getD_some, Except.map, Prod.map, Instr.dissolvedAll_eq]
      rfl

end

/-! ## §2. Steps. -/

section

theorem onFrames_mirrors {h k : Frames Instr → Frames Instr}
    (hk : ∀ fs, k (fs.map Instr.dissolved) = (h fs).map Instr.dissolved) :
    Mirrors id (onFrames h) (onFrames k) :=
  .update fun s => congrArg (fun frames => { s with frames }) (hk s.frames)

theorem defer_mirrors (i : Instr) : Mirrors id (defer i) (defer i.dissolved) :=
  onFrames_mirrors fun fs => Frames.defer_map _ fs i

theorem emit_mirrors (i : Instr) :
    Mirrors id (onFrames (·.emit i)) (onFrames (·.emit i.dissolved)) :=
  onFrames_mirrors fun fs => Frames.emit_map _ fs i

theorem emitAll_mirrors (is : List Instr) :
    Mirrors id (onFrames (·.emitAll is)) (onFrames (·.emitAll (Instr.dissolvedAll is))) := by
  rw [Instr.dissolvedAll_eq]
  exact onFrames_mirrors fun fs => Frames.emitAll_map _ fs is

theorem insertAt_mirrors (mark : Nat) (i : Instr) :
    Mirrors id (onFrames (·.insertAt mark i)) (onFrames (·.insertAt mark i.dissolved)) :=
  onFrames_mirrors fun fs => Frames.insertAt_map _ fs mark i

/-- A remark says nothing of what the frames hold. -/
theorem remark_mirrors {r r' : State → Remark} (h : ∀ s, r' s.dissolved = r s) :
    Mirrors id (remark r) (remark r') := by
  refine .update fun s => ?_
  show { s.dissolved with remarks := s.remarks ++ [r' s.dissolved] } = _
  rw [h]
  rfl

theorem warn_mirrors (env : Surface) (n : Node) :
    Mirrors id (warn env n) (warn env n.dissolved) := by
  unfold warn
  rw [flaggedCall?_dissolved, Node.tag_dissolved]
  split
  · exact .pure rfl
  · exact remark_mirrors fun s => rfl

theorem copied_mirrors (n : Node) : Mirrors dissolved (copied n) (copied n.dissolved) := by
  intro s
  have hcopy : rename {} n.dissolved = dissolved <$> rename {} n := rename_dissolved [] n
  unfold copied
  rw [hcopy]
  rfl

theorem unsplit_mirrors (env : Surface) (n : Node) :
    Mirrors dissolved (unsplit env n) (unsplit env n.dissolved) :=
  (warn_mirrors env n).bind fun _ => copied_mirrors n

theorem newTemp_mirrors : Mirrors id newTemp newTemp := fun _ => rfl

/-- A node that cannot stand somewhere is reported like what it dissolves into. -/
theorem misplaced_mirrors {α β : Type} (f : α → β) (n : Node) :
    Mirrors f (misplaced n) (misplaced n.dissolved) := by
  refine Mirrors.get.bind fun s => ?_
  rw [Node.isAbsent_dissolved, Node.tag_dissolved]
  split
  · exact fun s => rfl
  · exact fun s => rfl

/-- The value of an expression, dissolved. -/
def value : Node × Bool → Node × Bool := Prod.map dissolved id

theorem capture_mirrors (v : Node) : Mirrors value (capture v) (capture v.dissolved) :=
  newTemp_mirrors.bind fun t => (defer_mirrors (.set (.name t) v)).bind fun _ => .pure rfl

theorem settle_mirrors (v : Node) (split : Bool) :
    Mirrors value (settle v split) (settle v.dissolved split) := by
  cases split with
  | false => exact .pure rfl
  | true => exact capture_mirrors v

end

/-! ## §3. Expressions. -/

@[simp] theorem isTarget_dissolved (n : Node) : isTarget n.dissolved = isTarget n := by
  cases n <;> rfl

@[simp] theorem isMember_dissolved (n : Node) : isMember n.dissolved = isMember n := by
  cases n <;> rfl

theorem any_mentions_dissolved (isAsync : String → Bool) (args : List Node) :
    (dissolvedEach args).any (mentions isAsync) = args.any (mentions isAsync) := by
  rw [Node.dissolvedEach_eq, List.any_map]
  exact congrArg args.any (funext (mentions_dissolved isAsync))

section

variable {env : Surface}

/-- The value that the runtime returned is read where it was put, and nowhere else. -/
theorem emitCall_mirrors (h : env.Dissolved) (source callee : Node) (async : Bool)
    (args : List Node) :
    Mirrors value (emitCall env source async callee args)
      (emitCall env source.dissolved async callee.dissolved (dissolvedEach args)) := by
  unfold emitCall
  have count : Mirrors id
      (modify fun s => { s with calls := s.calls + 1, asyncCalls := s.asyncCalls + async.toNat })
      (modify fun s => { s with calls := s.calls + 1, asyncCalls := s.asyncCalls + async.toNat }) :=
    .update fun s => rfl
  have captured : ∀ t, Mirrors id (defer (.set (.name t) env.returnValue))
      (defer (.set (.name t) env.returnValue)) := by
    intro t
    have step := defer_mirrors (.set (.name t) env.returnValue)
    have same : env.returnValue.dissolved = env.returnValue := h
    simpa only [Instr.set, Instr.stat, Instr.dissolved, dissolved, same] using step
  refine (emit_mirrors (.leaf "call" (.stat (.call callee args)) async)).bind fun _ =>
    count.bind fun _ => newTemp_mirrors.bind fun t => (captured t).bind fun _ => ?_
  rw [calleeName_dissolved]
  cases async with
  | false => exact .pure rfl
  | true => exact (remark_mirrors fun s => rfl).bind fun _ => .pure rfl

mutual

theorem expr_mirrors (h : env.Dissolved) (n : Node) :
    Mirrors value (expr env n) (expr env n.dissolved) := by
  cases n with
  | name x =>
    rw [dissolved, expr]
    exact Mirrors.get.bind fun s => .pure (congrArg (·, false) (resolve_dissolved _ x))
  | num _ | string _ | atom _ | regexp _ _ =>
    rw [dissolved, expr]
    exact .pure rfl
  | call c args =>
    rw [dissolved, expr, expr]
    refine .inside _ ?_
    dsimp only
    rw [mentions_dissolved, any_mentions_dissolved, isMember_dissolved]
    split
    · exact (target_mirrors h c).bind fun _ => (operands_mirrors h args).bind fun _ =>
        emitCall_mirrors h c _ _ _
    · exact (expr_mirrors h c).bind fun _ => (operands_mirrors h args).bind fun _ =>
        emitCall_mirrors h c _ _ _
  | new c args =>
    rw [dissolved, expr, expr]
    exact (expr_mirrors h c).bind fun _ => (operands_mirrors h args).bind fun _ =>
      settle_mirrors _ _
  | binary op l r =>
    rw [dissolved, expr, expr]
    refine (expr_mirrors h l).bind fun ⟨l', ls⟩ => (expr_mirrors h r).bind fun ⟨r', rs⟩ => ?_
    dsimp only [value, Prod.map, id_eq]
    split
    · exact (remark_mirrors fun s => rfl).bind fun _ => settle_mirrors (.binary op l' r') _
    · exact settle_mirrors (.binary op l' r') _
  | unary side op e =>
    rw [dissolved, expr, expr]
    dsimp only
    rw [isTarget_dissolved]
    split
    · exact (target_mirrors h e).bind fun _ => settle_mirrors (.unary side op _) _
    · exact (expr_mirrors h e).bind fun _ => settle_mirrors (.unary side op _) _
  | assign op t v =>
    rw [dissolved, expr, expr]
    refine (target_mirrors h t).bind fun ⟨t', ts⟩ => (expr_mirrors h v).bind fun ⟨v', vs⟩ => ?_
    dsimp only [value, Prod.map, id_eq]
    split
    · exact (defer_mirrors (.stat (.assign op t' v'))).bind fun _ => .pure rfl
    · exact .pure rfl
  | dot b f =>
    rw [dissolved, expr, expr]
    exact (expr_mirrors h b).bind fun _ => settle_mirrors (.dot _ f) _
  | sub b i =>
    rw [dissolved, expr, expr]
    exact (expr_mirrors h b).bind fun _ => (expr_mirrors h i).bind fun _ =>
      settle_mirrors (.sub _ _) _
  | array es =>
    rw [dissolved, expr, expr]
    exact (operands_mirrors h es).bind fun _ => settle_mirrors (.array _) _
  | object ps =>
    rw [dissolved, expr, expr]
    exact (fields_mirrors h ps).bind fun _ => settle_mirrors (.object _) _
  | conditional _ _ _ | seq _ | function _ _ _ =>
    exact (unsplit_mirrors env _).map fun _ => rfl
  | _ => exact misplaced_mirrors value _
termination_by structural n

theorem target_mirrors (h : env.Dissolved) (n : Node) :
    Mirrors value (target env n) (target env n.dissolved) := by
  cases n with
  | name x =>
    rw [dissolved, target]
    exact Mirrors.get.bind fun s => .pure (congrArg (·, false) (resolve_dissolved _ x))
  | dot b f =>
    rw [dissolved, target, target]
    exact (expr_mirrors h b).bind fun _ => .pure rfl
  | sub b i =>
    rw [dissolved, target, target]
    exact (expr_mirrors h b).bind fun _ => (expr_mirrors h i).bind fun _ => .pure rfl
  | unary side _ _ => cases side <;> exact Mirrors.get.bind fun s => fun _ => rfl
  | _ => exact Mirrors.get.bind fun s => fun _ => rfl
termination_by structural n

theorem operands_mirrors (h : env.Dissolved) (es : List Node) :
    Mirrors (Prod.map dissolvedEach id) (operands env es) (operands env (dissolvedEach es)) := by
  cases es with
  | nil =>
    rw [dissolvedEach, operands]
    exact .pure rfl
  | cons e rest =>
    rw [dissolvedEach, operands, operands]
    exact (expr_mirrors h e).bind fun _ => (operands_mirrors h rest).bind fun _ => .pure rfl
termination_by structural es

theorem fields_mirrors (h : env.Dissolved) (ps : List (String × Node)) :
    Mirrors (Prod.map dissolvedFields id) (fields env ps) (fields env (dissolvedFields ps)) := by
  cases ps with
  | nil =>
    rw [dissolvedFields, fields]
    exact .pure rfl
  | cons p rest =>
    obtain ⟨k, e⟩ := p
    rw [dissolvedFields, fields, fields]
    exact (expr_mirrors h e).bind fun _ => (fields_mirrors h rest).bind fun _ => .pure rfl
termination_by structural ps

end

end

/-! ## §4. Statements. -/

section

variable {env : Surface}

theorem statement_mirrors {x y : Walk (Node × Bool)} (hx : Mirrors value x y) :
    Mirrors id (statement x) (statement y) := by
  refine hx.bind fun ⟨v, split⟩ => ?_
  cases split with
  | false => exact (defer_mirrors (.stat v)).bind fun _ => .pure rfl
  | true => exact .pure rfl

theorem statementOr_mirrors (h : env.Dissolved) (n : Node) {x y : Walk Bool}
    (hx : Mirrors id x y) : Mirrors id (statementOr env n x) (statementOr env n.dissolved y) := by
  unfold statementOr
  rw [Node.isExpression_dissolved]
  split
  · exact statement_mirrors (expr_mirrors h n)
  · exact hx

theorem binding_mirrors (h : env.Dissolved) (x : String) (init : Node) :
    Mirrors id (binding env x init) (binding env x init.dissolved) := by
  have declared : Mirrors id (modify fun s => { s with scope := s.scope.declare x })
      (modify fun s => { s with scope := s.scope.declare x }) :=
    .update fun s => rfl
  refine declared.bind fun _ => Mirrors.get.bind fun s => ?_
  dsimp only
  rw [Node.isAbsent_dissolved]
  split
  · exact (defer_mirrors (.set (s.scope.field x) .null)).bind fun _ => .pure rfl
  · refine Mirrors.bind (f := fun r => (r.1, r.2.1.dissolved, r.2.2)) (.inside _ ?_) fun read => ?_
    · -- the position is the same, since the frame holds as many instructions
      refine Mirrors.get.bind fun s => ?_
      have mark : s.dissolved.frames.mark = _ := Frames.mark_map _ s.frames
      have marked : Mirrors id (onFrames fun _ => s.frames.mark.2)
          (onFrames fun _ => s.frames.mark.2.map Instr.dissolved) :=
        onFrames_mirrors fun _ => rfl
      rw [mark]
      exact marked.bind fun _ => (expr_mirrors h init).bind fun _ => .pure rfl
    · obtain ⟨mark, v, split⟩ := read
      cases split with
      | false => exact (defer_mirrors (.set (s.scope.field x) v)).bind fun _ => .pure rfl
      | true =>
        exact (insertAt_mirrors mark (.set (s.scope.field x) .null)).bind fun _ =>
          (remark_mirrors fun _ => rfl).bind fun _ =>
          (defer_mirrors (.set (s.scope.field x) v)).bind fun _ => .pure rfl

theorem bindings_mirrors (h : env.Dissolved) (ds : List (String × Node)) :
    Mirrors id (bindings env ds) (bindings env (dissolvedFields ds)) := by
  induction ds with
  | nil =>
    rw [dissolvedFields, bindings]
    exact .pure rfl
  | cons d ds ih =>
    rw [dissolvedFields, bindings, bindings]
    exact (binding_mirrors h _ _).bind fun _ => ih.bind fun _ => .pure rfl

/-- What a walk collects, dissolved, with its value. -/
def collected : Bool × List Instr → Bool × List Instr := Prod.map id Instr.dissolvedAll

theorem region_mirrors (h : env.Dissolved) (name : String) (body : Node) {x y : Walk Bool}
    (hx : Mirrors id x y) :
    Mirrors collected (region env name body x) (region env name body.dissolved y) := by
  refine .inside _ (.framed ?_)
  rw [Node.isAbsent_dissolved]
  split
  · exact .pure rfl
  · exact statementOr_mirrors h body hx

theorem condition_mirrors (h : env.Dissolved) (cond : Node) :
    Mirrors value (condition env cond) (condition env cond.dissolved) := by
  refine (Mirrors.framed ((expr_mirrors h cond).inside _)).bind fun ⟨r, list⟩ => ?_
  exact (emitAll_mirrors list).bind fun _ => .pure rfl

theorem resultTemp_mirrors (split : Bool) : Mirrors id (resultTemp split) (resultTemp split) :=
  Mirrors.get.bind fun _ => .pure rfl

theorem branch_mirrors (h : env.Dissolved) (cond yes no : Node) {x x' y y' : Walk Bool}
    (hx : Mirrors id x x') (hy : Mirrors id y y') :
    Mirrors id (branch env cond yes no x y)
      (branch env cond.dissolved yes.dissolved no.dissolved x' y') := by
  refine .inside _ ((condition_mirrors h cond).bind fun ⟨cond', condSplit⟩ => ?_)
  refine (region_mirrors h "then" yes hx).bind fun ⟨yesSplit, yesList⟩ => ?_
  refine (resultTemp_mirrors yesSplit).bind fun yesTemp => ?_
  refine (region_mirrors h "else" no hy).bind fun ⟨noSplit, noList⟩ => ?_
  refine (resultTemp_mirrors noSplit).bind fun noTemp => ?_
  refine (remark_mirrors fun s => rfl).bind fun _ => ?_
  rw [Node.isAbsent_dissolved]
  exact (defer_mirrors (.branch cond' yesList noList _ _ yesTemp noTemp)).bind fun _ => .pure rfl

theorem loopInit_mirrors (h : env.Dissolved) (init : Node) {x y : Walk Bool}
    (hx : Mirrors id x y) : Mirrors id (loopInit env init x) (loopInit env init.dissolved y) := by
  unfold loopInit
  rw [Node.isAbsent_dissolved]
  split
  · exact .pure rfl
  · refine (region_mirrors h "init" init hx).bind fun ⟨split, list⟩ => ?_
    exact (emitAll_mirrors list).bind fun _ => .pure rfl

theorem loopTest_mirrors (h : env.Dissolved) (cond : Node) :
    Mirrors (Prod.map value Instr.dissolvedAll) (loopTest env cond)
      (loopTest env cond.dissolved) := by
  refine .framed ?_
  rw [Node.isAbsent_dissolved]
  split
  · exact .pure rfl
  · refine ((expr_mirrors h cond).inside _).bind fun ⟨c, split⟩ => ?_
    exact (defer_mirrors (.leaf "test" c false)).bind fun _ => .pure rfl

theorem loopStep_mirrors (h : env.Dissolved) (step : Node) :
    Mirrors (Prod.map value Instr.dissolvedAll) (loopStep env step)
      (loopStep env step.dissolved) := by
  refine .framed ?_
  rw [Node.isAbsent_dissolved]
  split
  · exact .pure rfl
  · refine ((expr_mirrors h step).inside _).bind fun ⟨e, split⟩ => ?_
    cases split with
    | false => exact (defer_mirrors (.stat e)).bind fun _ => .pure rfl
    | true => exact .pure rfl

theorem loop_mirrors (h : env.Dissolved) (init cond step body : Node) {x x' y y' : Walk Bool}
    (hx : Mirrors id x x') (hy : Mirrors id y y') :
    Mirrors id (loop env init cond step body x y)
      (loop env init.dissolved cond.dissolved step.dissolved body.dissolved x' y') := by
  refine .inside _ ((loopInit_mirrors h init hx).bind fun initSplit => ?_)
  refine (loopTest_mirrors h cond).bind fun ⟨⟨cond', condSplit⟩, test⟩ => ?_
  refine (loopStep_mirrors h step).bind fun ⟨⟨step', stepSplit⟩, stepList⟩ => ?_
  refine (region_mirrors h "body" body hy).bind fun ⟨bodySplit, bodyList⟩ => ?_
  have kept : (if stepSplit then .absent else step' : Node).dissolved =
      if stepSplit then .absent else step'.dissolved := by
    cases stepSplit <;> rfl
  have step := defer_mirrors (.loop cond' test stepList bodyList condSplit
    (if stepSplit then .absent else step'))
  rw [Instr.dissolved, kept] at step
  exact step.bind fun _ => .pure rfl

theorem declaration_mirrors (name : String) (params : List String) {x y : Walk Bool}
    (hx : Mirrors id x y) :
    Mirrors id (declaration name params x) (declaration name params y) := by
  refine .inside _ ((Mirrors.framed hx).bind fun ⟨split, list⟩ => ?_)
  exact (defer_mirrors (.defun name params list)).bind fun _ => .pure rfl

theorem passed_mirrors (n : Node) : Mirrors id (passed env n) (passed env n.dissolved) := by
  refine (unsplit_mirrors env n).bind fun n' => ?_
  rw [Node.tag_dissolved]
  exact (defer_mirrors (.leaf n.tag n' false)).bind fun _ => .pure rfl

/-- Lists one after the other are walked one after the other. -/
theorem stmts_append (xs ys : List Node) :
    stmts env (xs ++ ys) = do
      let split ← stmts env xs
      return (← stmts env ys) || split := by
  induction xs with
  | nil => simp [stmts]
  | cons x xs ih => simp only [List.cons_append, stmts, ih, bind_assoc, pure_bind, Bool.or_assoc]

/-- An element of a list is walked like the nodes it contributes. -/
theorem stmts_members (n : Node) : stmts env n.members = statementOr env n (stmt env n) := by
  have alone : stmts env [n] = statementOr env n (stmt env n) := by
    simp [stmts]
  cases n with
  | splice nodes => rfl
  | _ => exact alone

mutual

theorem stmt_mirrors (h : env.Dissolved) (n : Node) :
    Mirrors id (stmt env n) (stmt env n.dissolved) := by
  cases n with
  | stat e =>
    rw [dissolved, stmt, stmt]
    exact statement_mirrors (expr_mirrors h e)
  | var ds =>
    rw [dissolved, stmt, stmt]
    exact bindings_mirrors h ds
  | block ns | splice ns =>
    rw [dissolved, stmt, stmt]
    exact stmts_mirrors h ns
  | ifElse c yes no =>
    rw [dissolved, stmt, stmt]
    exact branch_mirrors h c yes no (stmt_mirrors h yes) (stmt_mirrors h no)
  | forLoop init cond step body =>
    rw [dissolved, stmt, stmt]
    exact loop_mirrors h init cond step body (stmt_mirrors h init) (stmt_mirrors h body)
  | defun name params ns =>
    rw [dissolved, stmt, stmt]
    exact declaration_mirrors name params (stmts_mirrors h ns)
  | breakTo _ | continueTo _ | debugger =>
    exact (defer_mirrors (.leaf _ _ false)).bind fun _ => .pure rfl
  | label _ _ | whileLoop _ _ | doLoop _ _ | tryCatch _ _ _ | throw _ | switch _ _ | forIn _ _ _
  | withObject _ _ | ret _ | const _ =>
    exact passed_mirrors _
  | _ => exact misplaced_mirrors id _
termination_by structural n

/-- A list is walked like what it dissolves into. -/
theorem stmts_mirrors (h : env.Dissolved) (ns : List Node) :
    Mirrors id (stmts env ns) (stmts env (dissolvedAll ns)) := by
  cases ns with
  | nil =>
    rw [dissolvedAll, stmts]
    exact .pure rfl
  | cons n rest =>
    rw [dissolvedAll, stmts_append, stmts_members, stmts]
    exact (statementOr_mirrors h n (stmt_mirrors h n)).bind fun _ =>
      (stmts_mirrors h rest).bind fun _ => .pure rfl
termination_by structural ns

end

end

end Walk

end Resumable.Program
