/-
  Resumable.Proofs.Marks.Warnings — which calls are warned of.

  A construct that is taken as a whole is warned of if it has a call by a name that may suspend.
  `Logs` says which warnings a walk makes, in order, if it ends well.  There is one lemma for each
  step; the warnings of a walk that is put together are those of its parts, one after the other,
  so that a walk of a tree warns of the constructs of the tree from left to right.

  The rule for warnings is not the rule for marks: a call that may suspend because of its receiver
  or of an argument is marked when it is analysed, and not warned of when it is not.

  Main statements:
    * `transform_notices_calls`  — what becomes of the calls of a unit;
    * `transform_misses_markers` — a call with a marker, neither marked nor warned of.
-/
import Resumable.Convention
import Resumable.Proofs.Marks.Calls
import Resumable.Proofs.Support

namespace Resumable

/-! ## §1. Warnings. -/

/-- An entry of the log without the place it was made at. -/
def Log.Entry.placeless (e : Log.Entry) : Log.Entry :=
  { e with fields := e.fields.filter (fun f => f.1 != "path") }

namespace Program

/-- The warning of a construct of a kind with a call by a name; its place is left out. -/
def warning (kind callee : String) : Log.Entry :=
  { level := .warn, message := "async call inside unanalyzed construct"
    fields := [("kind", .text kind), ("callee", .text callee)] }

/-- The warning of a construct: it names the first call by a name that may suspend. -/
def warning? (isAsync : String → Bool) (n : Node) : Option Log.Entry :=
  (n.calls.findSome? (Walk.flaggedName? isAsync)).map (warning n.tag)

/-- The warning that a remark is. -/
def Remark.warning? : Remark → Option Log.Entry
  | .unanalyzed kind callee _ => some (Program.warning kind callee)
  | _ => none

/-- The warnings that a walk has made. -/
def State.warnings (s : State) : List Log.Entry := s.remarks.filterMap Remark.warning?

/-- Warnings are the only entries that are not for debugging. -/
theorem entries_warnings (trail : Trail) (remarks : List Remark) :
    (Log.atLeast .warn (remarks.map (Remark.entry trail))).map Log.Entry.placeless =
      remarks.filterMap Remark.warning? := by
  unfold Log.atLeast
  induction remarks with
  | nil => rfl
  | cons r rest ih =>
    rw [List.map_cons]
    cases r with
    | unanalyzed kind callee place =>
      have hwarning : (Remark.unanalyzed kind callee place).warning? =
          some (warning kind callee) := rfl
      rw [List.filterMap_cons_some hwarning, ← ih]
      rfl
    | _ =>
      rw [List.filterMap_cons_none rfl, ← ih]
      rfl

namespace Walk

/-- A name can only be found in a call. -/
theorem flaggedCall?_eq (isAsync : String → Bool) (n : Node) :
    flaggedCall? isAsync n = n.calls.findSome? (flaggedName? isAsync) := by
  unfold flaggedCall? Node.calls Node.everything
  induction n.inspect (fun _ => true) with
  | nil => rfl
  | cons m rest ih =>
    rw [List.findSome?_cons, List.filter_cons]
    cases m with
    | call c args => rw [isCall, if_pos rfl, List.findSome?_cons, ih]
    | _ => exact ih

/-- The walk makes these warnings if it ends well. -/
def Logs {α : Type} (warnings : List Log.Entry) (x : Walk α) : Prop :=
  ∀ s a s', x s = (.ok a, s') → s'.warnings = s.warnings ++ warnings

/-! ## §2. Steps. -/

section

variable {α β : Type} {ws ws' : List Log.Entry} {x : Walk α}

theorem Logs.pure (a : α) : Logs [] (Pure.pure a : Walk α) := by
  intro s b s' h
  cases h
  exact (List.append_nil _).symm

theorem Logs.bind {f : α → Walk β} (h : Logs ws x) (hf : ∀ a, Logs ws' (f a)) :
    Logs (ws ++ ws') (x >>= f) := by
  intro s b s' hb
  obtain ⟨a, s₁, hx, hb⟩ := bind_ok.mp hb
  rw [hf a _ _ _ hb, h _ _ _ hx, List.append_assoc]

/-- What follows makes no warnings. -/
theorem Logs.last {f : α → Walk β} (h : Logs ws x) (hf : ∀ a, Logs [] (f a)) :
    Logs ws (x >>= f) := by
  have both := h.bind hf
  rwa [List.append_nil] at both

/-- What went before makes no warnings. -/
theorem Logs.after {f : α → Walk β} (h : Logs [] x) (hf : ∀ a, Logs ws (f a)) :
    Logs ws (x >>= f) :=
  h.bind hf

theorem Logs.get : Logs [] (MonadState.get : Walk State) := by
  intro s a s' h
  cases h
  exact (List.append_nil _).symm

/-- A step that leaves the remarks as they are. -/
theorem Logs.update {f : State → State} (h : ∀ s, (f s).remarks = s.remarks) :
    Logs [] (modify f : Walk Unit) := by
  intro s a s' hs
  cases hs
  unfold State.warnings
  rw [h s, List.append_nil]

theorem Logs.inside {name : String} (h : Logs ws x) : Logs ws (Walk.inside name x) := by
  intro s a s' hs
  obtain ⟨s₁, hx, rfl⟩ := inside_ok.mp hs
  have made := h _ _ _ hx
  exact made

theorem Logs.framed (h : Logs ws x) : Logs ws (Walk.framed x) := by
  rintro s ⟨a, list⟩ s' hs
  obtain ⟨s₁, hx, rfl, rfl⟩ := framed_ok.mp hs
  have made := h _ _ _ hx
  exact made

end

variable {isAsync : String → Bool}

theorem onFrames_logs (f : Frames Instr → Frames Instr) : Logs [] (onFrames f) :=
  .update fun _ => rfl

theorem defer_logs (i : Instr) : Logs [] (defer i) := onFrames_logs _

/-- A remark that is no warning. -/
theorem remark_logs {r : State → Remark} (h : ∀ s, (r s).warning? = none) :
    Logs [] (remark r) := by
  intro s a s' hs
  cases hs
  unfold State.warnings
  rw [List.filterMap_append, List.filterMap_cons_none (h s)]
  rfl

theorem copied_logs (n : Node) : Logs [] (copied n) := by
  intro s m s' h
  obtain ⟨-, rfl⟩ := copied_ok h
  exact (List.append_nil _).symm

theorem newTemp_logs : Logs [] newTemp := by
  intro s t s' h
  cases h
  exact (List.append_nil _).symm

theorem settle_logs (value : Node) (split : Bool) : Logs [] (settle value split) := by
  cases split with
  | false => exact .pure _
  | true => exact newTemp_logs.after fun _ => (defer_logs _).after fun _ => .pure _

theorem misplaced_logs {α : Type} (ws : List Log.Entry) (n : Node) :
    Logs ws (misplaced n : Walk α) :=
  fun _ _ _ h => absurd h misplaced_ne_ok

theorem emitCall_logs (env : Surface) (c : Node) (async : Bool) (c' : Node) (args : List Node) :
    Logs [] (emitCall env c async c' args) := by
  refine (onFrames_logs _).after fun _ => Logs.after (.update fun _ => rfl) fun _ =>
    newTemp_logs.after fun _ => (defer_logs _).after fun _ => ?_
  cases async with
  | false => exact .pure _
  | true => exact Logs.after (remark_logs fun _ => rfl) fun _ => .pure _

/-- A construct that is not split is warned of if it has a call by a name that may suspend. -/
theorem unsplit_logs (env : Surface) (n : Node) :
    Logs (warning? env.isAsync n).toList (unsplit env n) := by
  refine Logs.last ?_ fun _ => copied_logs n
  intro s u s' h
  unfold warn at h
  unfold Program.warning?
  rw [← flaggedCall?_eq]
  cases hf : flaggedCall? env.isAsync n with
  | none =>
    rw [hf] at h
    cases h
    exact (List.append_nil _).symm
  | some callee =>
    rw [hf] at h
    cases h
    exact List.filterMap_append

/-! ## §3. Expressions. -/

/-- The warnings of a tree. -/
def warningsOf (isAsync : String → Bool) (n : Node) : List Log.Entry :=
  n.wholes.filterMap (warning? isAsync)

/-- The warnings of a tree that is not taken as a whole are those of its operands. -/
theorem warningsOf_children {n : Node} {ns : List Node} (hn : n.isWhole = false)
    (hc : n.children = Node.present ns) :
    warningsOf isAsync n = ns.flatMap (warningsOf isAsync) := by
  unfold warningsOf
  rw [Node.wholes_eq hn, hc, Node.flatMap_present_of _ (Node.wholes_eq rfl),
    List.filterMap_flatMap]

theorem warningsOf_whole {n : Node} (hn : n.isWhole = true) :
    warningsOf isAsync n = (warning? isAsync n).toList := by
  unfold warningsOf
  rw [Node.wholes_of_isWhole hn]
  cases h : warning? isAsync n <;> simp [h]

/-- A node without operands is not warned of. -/
theorem warningsOf_leaf {n : Node} (hn : n.isWhole = false) (hc : n.children = []) :
    warningsOf isAsync n = [] := by
  have hnone : n.children = Node.present [] := hc
  exact warningsOf_children hn hnone

section

variable {env : Surface}

mutual

theorem expr_logs (n : Node) : Logs (warningsOf env.isAsync n) (expr env n) := by
  cases n with
  | name x =>
    rw [expr, warningsOf_leaf rfl rfl]
    exact Logs.get.after fun _ => .pure _
  | num _ | string _ | atom _ | regexp _ _ =>
    rw [expr, warningsOf_leaf rfl rfl]
    exact .pure _
  | call c args =>
    rw [expr, warningsOf_children rfl rfl, List.flatMap_cons]
    refine .inside ?_
    dsimp only
    split
    · exact (target_logs c).bind fun _ => (operands_logs args).last fun _ => emitCall_logs _ _ _ _ _
    · exact (expr_logs c).bind fun _ => (operands_logs args).last fun _ => emitCall_logs _ _ _ _ _
  | new c args =>
    rw [expr, warningsOf_children rfl rfl, List.flatMap_cons]
    exact (expr_logs c).bind fun _ => (operands_logs args).last fun _ => settle_logs _ _
  | binary op l r =>
    rw [expr, warningsOf_children rfl rfl, List.flatMap_cons, List.flatMap_singleton]
    refine (expr_logs l).bind fun ⟨_, ls⟩ => (expr_logs r).last fun ⟨_, rs⟩ => ?_
    dsimp only
    split
    · exact Logs.after (remark_logs fun _ => rfl) fun _ => settle_logs _ _
    · exact settle_logs _ _
  | unary side op e =>
    rw [expr, warningsOf_children rfl rfl, List.flatMap_singleton]
    dsimp only
    split
    · exact (target_logs e).last fun _ => settle_logs _ _
    · exact (expr_logs e).last fun _ => settle_logs _ _
  | assign op t v =>
    rw [expr, warningsOf_children rfl rfl, List.flatMap_cons, List.flatMap_singleton]
    refine (target_logs t).bind fun ⟨_, ts⟩ => (expr_logs v).last fun ⟨_, vs⟩ => ?_
    dsimp only
    split
    · exact (defer_logs _).after fun _ => .pure _
    · exact .pure _
  | dot b f =>
    rw [expr, warningsOf_children rfl rfl, List.flatMap_singleton]
    exact (expr_logs b).last fun _ => settle_logs _ _
  | sub b i =>
    rw [expr, warningsOf_children rfl rfl, List.flatMap_cons, List.flatMap_singleton]
    exact (expr_logs b).bind fun _ => (expr_logs i).last fun _ => settle_logs _ _
  | array es =>
    rw [expr, warningsOf_children rfl rfl]
    exact (operands_logs es).last fun _ => settle_logs _ _
  | object ps =>
    rw [expr, warningsOf_children rfl rfl]
    exact (fields_logs ps).last fun _ => settle_logs _ _
  | conditional _ _ _ | seq _ | function _ _ _ =>
    rw [expr, map_eq_pure_bind, warningsOf_whole rfl]
    exact (unsplit_logs env _).last fun _ => .pure _
  | _ =>
    simp only [expr]
    exact misplaced_logs _ _
termination_by structural n

theorem target_logs (n : Node) : Logs (warningsOf env.isAsync n) (target env n) := by
  cases n with
  | name x =>
    rw [target, warningsOf_leaf rfl rfl]
    exact Logs.get.after fun _ => .pure _
  | dot b f =>
    rw [target, warningsOf_children rfl rfl, List.flatMap_singleton]
    exact (expr_logs b).last fun _ => .pure _
  | sub b i =>
    rw [target, warningsOf_children rfl rfl, List.flatMap_cons, List.flatMap_singleton]
    exact (expr_logs b).bind fun _ => (expr_logs i).last fun _ => .pure _
  | _ =>
    simp only [target]
    intro s a s' h
    cases h
termination_by structural n

theorem operands_logs (ns : List Node) :
    Logs (ns.flatMap (warningsOf env.isAsync)) (operands env ns) := by
  cases ns with
  | nil =>
    rw [operands]
    exact .pure _
  | cons n ns =>
    rw [operands, List.flatMap_cons]
    exact (expr_logs n).bind fun _ => (operands_logs ns).last fun _ => .pure _
termination_by structural ns

theorem fields_logs (ps : List (String × Node)) :
    Logs ((ps.map (·.2)).flatMap (warningsOf env.isAsync)) (fields env ps) := by
  cases ps with
  | nil =>
    rw [fields]
    exact .pure _
  | cons p ps =>
    obtain ⟨k, n⟩ := p
    rw [fields, List.map_cons, List.flatMap_cons]
    exact (expr_logs n).bind fun _ => (fields_logs ps).last fun _ => .pure _
termination_by structural ps

end

/-! ## §4. Statements. -/

theorem statement_logs {ws : List Log.Entry} {x : Walk (Node × Bool)} (h : Logs ws x) :
    Logs ws (statement x) := by
  refine h.last fun ⟨v, split⟩ => ?_
  cases split with
  | false => exact (defer_logs _).after fun _ => .pure _
  | true => exact .pure _

theorem statementOr_logs {n : Node} {x : Walk Bool} (h : Logs (warningsOf env.isAsync n) x) :
    Logs (warningsOf env.isAsync n) (statementOr env n x) := by
  unfold statementOr
  split
  · exact statement_logs (expr_logs n)
  · exact h

/-- A part that was left out is not warned of. -/
theorem warningsOf_isAbsent {n : Node} (h : n.isAbsent = true) : warningsOf isAsync n = [] := by
  cases n <;> cases h
  exact warningsOf_leaf rfl rfl

theorem binding_logs (x : String) (init : Node) :
    Logs (warningsOf env.isAsync init) (binding env x init) := by
  refine Logs.after (.update fun _ => rfl) fun _ => Logs.get.after fun _ => ?_
  split
  · next hi =>
    rw [warningsOf_isAbsent hi]
    exact (defer_logs _).after fun _ => .pure _
  · refine Logs.last (.inside ?_) fun ⟨_, _, split⟩ => ?_
    · exact Logs.get.after fun _ => (onFrames_logs _).after fun _ =>
        (expr_logs init).last fun _ => .pure _
    · cases split with
      | false => exact (defer_logs _).after fun _ => .pure _
      | true =>
        exact (onFrames_logs _).after fun _ => Logs.after (remark_logs fun _ => rfl) fun _ =>
          (defer_logs _).after fun _ => .pure _

theorem bindings_logs (ds : List (String × Node)) :
    Logs ((ds.map (·.2)).flatMap (warningsOf env.isAsync)) (bindings env ds) := by
  induction ds with
  | nil =>
    rw [bindings]
    exact .pure _
  | cons d ds ih =>
    rw [bindings, List.map_cons, List.flatMap_cons]
    exact (binding_logs d.1 d.2).bind fun _ => ih.last fun _ => .pure _

theorem region_logs (name : String) {body : Node} {x : Walk Bool}
    (h : Logs (warningsOf env.isAsync body) x) :
    Logs (warningsOf env.isAsync body) (region env name body x) := by
  refine .inside (.framed ?_)
  split
  · next hb =>
    rw [warningsOf_isAbsent hb]
    exact .pure _
  · exact statementOr_logs h

theorem condition_logs (cond : Node) :
    Logs (warningsOf env.isAsync cond) (condition env cond) :=
  Logs.last (.framed (.inside (expr_logs cond))) fun _ =>
    (onFrames_logs _).after fun _ => .pure _

theorem branch_logs (cond : Node) {yes no : Node} {x y : Walk Bool}
    (hx : Logs (warningsOf env.isAsync yes) x) (hy : Logs (warningsOf env.isAsync no) y) :
    Logs ([cond, yes, no].flatMap (warningsOf env.isAsync)) (branch env cond yes no x y) := by
  rw [List.flatMap_cons, List.flatMap_cons, List.flatMap_singleton]
  have temp : ∀ split, Logs [] (resultTemp split) := fun _ => Logs.get.after fun _ => .pure _
  refine .inside ((condition_logs cond).bind fun _ => (region_logs "then" hx).bind fun _ => ?_)
  refine (temp _).after fun _ => (region_logs "else" hy).last fun _ => (temp _).after fun _ => ?_
  exact Logs.after (remark_logs fun _ => rfl) fun _ => (defer_logs _).after fun _ => .pure _

theorem loopInit_logs {init : Node} {x : Walk Bool} (h : Logs (warningsOf env.isAsync init) x) :
    Logs (warningsOf env.isAsync init) (loopInit env init x) := by
  unfold loopInit
  split
  · next hi =>
    rw [warningsOf_isAbsent hi]
    exact .pure _
  · exact (region_logs "init" h).last fun _ => (onFrames_logs _).after fun _ => .pure _

theorem loopTest_logs (cond : Node) : Logs (warningsOf env.isAsync cond) (loopTest env cond) := by
  refine .framed ?_
  split
  · next hc =>
    rw [warningsOf_isAbsent hc]
    exact .pure _
  · exact Logs.last (.inside (expr_logs cond)) fun _ => (defer_logs _).after fun _ => .pure _

theorem loopStep_logs (step : Node) : Logs (warningsOf env.isAsync step) (loopStep env step) := by
  refine .framed ?_
  split
  · next hs =>
    rw [warningsOf_isAbsent hs]
    exact .pure _
  · refine Logs.last (.inside (expr_logs step)) fun ⟨e, split⟩ => ?_
    cases split with
    | false => exact (defer_logs _).after fun _ => .pure _
    | true => exact .pure _

theorem loop_logs {init : Node} (cond step : Node) {body : Node} {x y : Walk Bool}
    (hx : Logs (warningsOf env.isAsync init) x) (hy : Logs (warningsOf env.isAsync body) y) :
    Logs ([init, cond, step, body].flatMap (warningsOf env.isAsync))
      (loop env init cond step body x y) := by
  rw [List.flatMap_cons, List.flatMap_cons, List.flatMap_cons, List.flatMap_singleton]
  refine .inside ((loopInit_logs hx).bind fun _ => (loopTest_logs cond).bind fun _ => ?_)
  refine (loopStep_logs step).bind fun _ => (region_logs "body" hy).last fun _ => ?_
  exact (defer_logs _).after fun _ => .pure _

theorem declaration_logs {ws : List Log.Entry} (name : String) (params : List String)
    {x : Walk Bool} (h : Logs ws x) : Logs ws (declaration name params x) :=
  .inside (Logs.last (.framed h) fun _ => (defer_logs _).after fun _ => .pure _)

mutual

theorem stmt_logs (n : Node) : Logs (warningsOf env.isAsync n) (stmt env n) := by
  cases n with
  | stat e =>
    rw [stmt, warningsOf_children rfl rfl, List.flatMap_singleton]
    exact statement_logs (expr_logs e)
  | var ds =>
    rw [stmt, warningsOf_children rfl rfl]
    exact bindings_logs ds
  | block ns | splice ns =>
    rw [stmt, warningsOf_children rfl rfl]
    exact stmts_logs ns
  | ifElse c yes no =>
    rw [stmt, warningsOf_children rfl rfl]
    exact branch_logs c (stmt_logs yes) (stmt_logs no)
  | forLoop init cond step body =>
    rw [stmt, warningsOf_children rfl rfl]
    exact loop_logs cond step (stmt_logs init) (stmt_logs body)
  | defun name params ns =>
    rw [stmt, warningsOf_children rfl rfl]
    exact declaration_logs name params (stmts_logs ns)
  | breakTo _ | continueTo _ | debugger =>
    rw [stmt, warningsOf_leaf rfl rfl]
    exact (defer_logs _).after fun _ => .pure _
  | label _ _ | whileLoop _ _ | doLoop _ _ | tryCatch _ _ _ | throw _ | switch _ _ | forIn _ _ _
  | withObject _ _ | ret _ | const _ =>
    rw [stmt, warningsOf_whole rfl]
    exact (unsplit_logs env _).last fun _ => (defer_logs _).after fun _ => .pure _
  | _ =>
    simp only [stmt]
    exact misplaced_logs _ _
termination_by structural n

theorem stmts_logs (ns : List Node) :
    Logs (ns.flatMap (warningsOf env.isAsync)) (stmts env ns) := by
  cases ns with
  | nil =>
    rw [stmts]
    exact .pure _
  | cons n ns =>
    rw [stmts, List.flatMap_cons]
    exact (statementOr_logs (stmt_logs n)).bind fun _ => (stmts_logs ns).last fun _ => .pure _
termination_by structural ns

end

end

end Walk

/-! ## §5. Whole units. -/

/-- The warnings in the log of a transform are those of the constructs taken as a whole. -/
theorem transform_warnings {naming : Naming} {isAsync : String → Bool} {unit : Node}
    {t : Transformed} {log : List Log.Entry} (h : transform naming isAsync unit = (.ok t, log)) :
    (Log.atLeast .warn log).map Log.Entry.placeless = unit.wholes.filterMap (warning? isAsync) := by
  cases unit with
  | toplevel body =>
    rcases hw : walkUnit naming isAsync body with ⟨r, s⟩
    simp only [transform, transformBody, hw] at h
    cases r with
    | error e => cases h
    | ok b =>
      obtain ⟨t', ht', -⟩ := finish_walkUnit hw
      simp only [ht'] at h
      cases h
      -- the entry at the end is for debugging, and so is the remark on declared names
      have hstmts : Walk.Logs _ (Walk.stmts (naming.surface isAsync) body) := Walk.stmts_logs body
      have hlogs : s.warnings = (State.start naming body).warnings ++ _ :=
        hstmts.inside _ _ _ hw
      have hlast : Log.atLeast .warn [t.stats.entry] = [] := rfl
      have hlog : Log.atLeast .warn (s.remarks.map (Remark.entry s.trail) ++ [t.stats.entry]) =
          Log.atLeast .warn (s.remarks.map (Remark.entry s.trail)) := by
        show List.filter _ _ = _
        rw [List.filter_append]
        exact (congrArg (_ ++ ·) hlast).trans (List.append_nil _)
      rw [hlog, entries_warnings]
      exact hlogs.trans (Walk.warningsOf_children (n := .toplevel body) rfl rfl).symm
  | _ => cases h

/-- What becomes of the calls of a unit. -/
structure Noticed (naming : Naming) (isAsync : String → Bool) (body : List Node) (t : Transformed)
    (log : List Log.Entry) : Prop where
  /-- Every call is analysed, or stands inside a construct that is taken as a whole. -/
  covered : (Node.toplevel body).calls.Perm
    ((Node.toplevel body).analysedCalls ++ (Node.toplevel body).wholes.flatMap Node.calls)
  /-- A call that is analysed has an instruction, which is marked if the call may suspend. -/
  emitted : List.Forall₂
    (fun c i => Walk.CallMatches naming.container (Node.varsAll body) t.locals c i ∧
      i.async = Walk.flagged isAsync c)
    (Node.toplevel body).analysedCalls (Instr.calls t.program)
  /-- A construct is warned of if it has a call by a name that may suspend. -/
  warned : (Log.atLeast .warn log).map Log.Entry.placeless =
    (Node.toplevel body).wholes.filterMap (fun w =>
      (w.calls.findSome? (Walk.flaggedName? isAsync)).map (warning w.tag))

/-- No call of a transformed unit goes unnoticed, if a call inside a construct that is taken as a
    whole is told by its own name. -/
theorem transform_notices_calls (naming : Naming) (isAsync : String → Bool) (unit : Node)
    (t : Transformed) (log : List Log.Entry) (h : transform naming isAsync unit = (.ok t, log)) :
    ∃ body, unit = .toplevel body ∧ Noticed naming isAsync body t log := by
  have ht : (transform naming isAsync unit).1 = .ok t := congrArg Prod.fst h
  obtain ⟨body, σ, rfl, derived⟩ := transform_emits ht
  obtain ⟨vs, split, emits⟩ := derived.emits
  refine ⟨body, rfl, Node.calls_perm _, ?_, transform_warnings h⟩
  have hmatch := emits.calls_match
  unfold Walk.CallsMatch at hmatch
  rw [(naming.declares_scope body).container, ← derived.locals] at hmatch
  refine forall₂_and_of_map_eq ?_ (transform_marks ht)
  rw [Walk.analysedCalls_children rfl rfl rfl]
  exact hmatch.imp fun n i hi =>
    hi.widen (fun x hx => Scope.mem_declareAll.mpr (.inr hx)) (List.Subset.refl _)

/-- A primitive whose value is waited for, one inside a conditional, and one that is returned:
    `asyncRead(); a ? asyncRead() : b; return asyncRead()`. -/
theorem transform_notices_calls_of_primitive :
    let call : Node := .call (.name "asyncRead") []
    let body : List Node :=
      [.stat call, .stat (.conditional (.name "a") call (.name "b")), .ret call]
    ∃ t log, transform {} Convention.usual.isAsync (.toplevel body) = (.ok t, log) ∧
      ∃ body', Node.toplevel body = .toplevel body' ∧
        Noticed {} Convention.usual.isAsync body' t log := by
  intro call body
  obtain ⟨t, ht⟩ : ∃ t, (transform {} Convention.usual.isAsync (.toplevel body)).1 = .ok t :=
    exists_of_isOk (by decide +kernel)
  have h : transform {} Convention.usual.isAsync (.toplevel body) =
      (.ok t, (transform {} Convention.usual.isAsync (.toplevel body)).2) := by rw [← ht]
  exact ⟨t, _, h, transform_notices_calls {} Convention.usual.isAsync (.toplevel body) t _ h⟩

/-- A callback that the runtime passes in, given to a function whose value is returned:
    `return f($$success)`.  The call may suspend, but has no instruction and no warning. -/
theorem transform_misses_markers :
    let call : Node := .call (.name "f") [.name "$$success"]
    let unit : Node := .toplevel [.ret call]
    ∃ t log, transform {} Convention.usual.isAsync unit = (.ok t, log) ∧
      call ∈ unit.calls ∧ Walk.flagged Convention.usual.isAsync call = true ∧
      Instr.calls t.program = [] ∧ Log.atLeast .warn log = [] := by
  intro call unit
  obtain ⟨t, ht, hcalls⟩ := exists_of_okAnd (r := (transform {} Convention.usual.isAsync unit).1)
    (fun t => (Instr.calls t.program).isEmpty) (by decide +kernel)
  have hcall : unit.calls = [call] := by rfl
  refine ⟨t, (transform {} Convention.usual.isAsync unit).2, Prod.ext ht rfl, ?_, ?_, ?_, ?_⟩
  · rw [hcall]
    exact List.mem_cons_self
  · decide +kernel
  · exact List.isEmpty_iff.mp hcalls
  · decide +kernel

end Program

end Resumable
