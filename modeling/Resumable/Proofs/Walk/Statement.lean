/-
  Resumable.Proofs.Walk.Statement — the walk of a unit has a derivation.

  What a branch, a part of a loop or a function body collects in a frame of its own is a list of a
  derivation (`Collects`); what a statement leaves in the frame in use is, too (`Does`).

  Main statement: `transform_emits`.  A transformed unit has the program, the local names and the
  figures of a derivation for its statements.
-/
import Resumable.Proofs.Support
import Resumable.Proofs.Walk.Expression

namespace Resumable.Program

namespace Walk

/-! ## §1. Effects and frames. -/

/-- A walk of statements that ends well. -/
def Does (env : Surface) (job : Job) (s : State) (split : Bool) (s' : State) : Prop :=
  ∃ vs, Yields env job s vs split s'

/-- A walk of a job that ends well, with its instructions handed over. -/
structure Collects (env : Surface) (job : Job) (s : State) (vs : List Node) (split : Bool)
    (code : List Instr) (s' : State) : Prop where
  emits : Emits env job s.scope vs split code s'.scope
  frames : s'.frames = s.frames
  counted : Counted s s' code

section

variable {env : Surface} {job : Job} {s s' s₁ s₂ : State} {n v : Node} {vs : List Node}
  {split : Bool} {code : List Instr}

theorem Does.between (hq : Quiet s s₁) (h : Does env job s₁ split s₂) (hq' : Quiet s₂ s') :
    Does env job s split s' := by
  obtain ⟨vs, hv⟩ := h
  exact ⟨vs, (hv.after hq).quiet hq'⟩

/-- An instruction that holds what was collected, behind what was placed before it. -/
theorem Does.deferred {i : Instr} (he : Emits env job s.scope vs split (code ++ [i]) s₁.scope)
    (hx : Frames.Extends s.frames s₁.frames code) (hc : Counted s s₁ (code ++ [i])) :
    Does env job s split { s₁ with frames := s₁.frames.defer i } :=
  ⟨vs, code ++ [i], he, hx.trans (.defer _ _), hc.calls, hc.asyncCalls⟩

theorem effect_yields {walk : Walk (Node × Bool)} {b : Bool}
    (hw : ∀ {s' v b}, walk s = (.ok (v, b), s') → Yields env (.expr n) s [v] b s')
    (h : statement walk s = (.ok b, s')) : Does env (.effect n) s b s' := by
  unfold statement at h
  simp only [bind_ok, Prod.exists] at h
  obtain ⟨v, split, s₁, hv, h⟩ := h
  obtain ⟨code, he, hx, hc⟩ := hw hv
  cases split with
  | false =>
    cases h
    exact ⟨[v], _, .effect he, hx.trans (.defer _ _), hc.trans ⟨rfl, rfl⟩⟩
  | true =>
    cases h
    exact ⟨[v], _, .effect he, hx.trans (.refl _), hc.trans (.refl _)⟩

theorem statementOr_does {b : Bool}
    (hs : ∀ {s s' b}, stmt env n s = (.ok b, s') → Does env (.stmt n) s b s')
    (h : statementOr env n (stmt env n) s = (.ok b, s')) : Does env (.stmt n) s b s' := by
  unfold statementOr at h
  split at h
  · next he =>
    obtain ⟨vs, hv⟩ := effect_yields expr_yields h
    exact ⟨vs, hv.leads (.expression he)⟩
  · exact hs h

/-- What was collected in a frame of its own. -/
theorem framed_collects {α : Type} {body : Walk α} {a : α} {list : List Instr}
    (hb : ∀ {s s'}, body s = (.ok a, s') → Yields env job s vs split s')
    (h : framed body s = (.ok (a, list), s')) : Collects env job s vs split list s' := by
  obtain ⟨s₁, hbody, rfl, rfl⟩ := framed_ok.mp h
  obtain ⟨code, he, hx, hc⟩ := hb hbody
  rw [Frames.pop?_of_extends_push hx]
  exact ⟨he, rfl, hc.calls, hc.asyncCalls⟩

theorem Collects.between (hq : Quiet s s₁) (h : Collects env job s₁ vs split code s₂)
    (hq' : Quiet s₂ s') : Collects env job s vs split code s' := by
  refine ⟨?_, ?_, ?_, ?_⟩
  · rw [hq'.scope, ← hq.scope]
    exact h.emits
  · rw [hq'.frames, h.frames, hq.frames]
  · rw [hq'.calls, h.counted.calls, hq.calls]
  · rw [hq'.asyncCalls, h.counted.asyncCalls, hq.asyncCalls]

theorem region_collects {name : String} {b : Bool} {list : List Instr}
    (hs : ∀ {s s' b}, stmt env n s = (.ok b, s') → Does env (.stmt n) s b s')
    (h : region env name n (stmt env n) s = (.ok (b, list), s')) :
    ∃ vs, Collects env (.region n) s vs b list s' := by
  obtain ⟨s₁, s₂, hq, hf, hq'⟩ := inside_quiet h
  obtain ⟨s₃, hbody, rfl, rfl⟩ := framed_ok.mp hf
  -- a part that was left out does nothing, in a frame of its own all the same
  have hdone : Does env (.region n) { s₁ with frames := s₁.frames.push } b s₃ := by
    split at hbody
    · next ha =>
      cases n <;> cases ha
      cases hbody
      exact ⟨_, .silent (.void .region) rfl rfl rfl⟩
    · obtain ⟨vs, hv⟩ := statementOr_does hs hbody
      exact ⟨vs, hv.leads (.region n)⟩
  obtain ⟨vs, code, he, hx, hc⟩ := hdone
  refine ⟨vs, .between hq ?_ hq'⟩
  rw [Frames.pop?_of_extends_push hx]
  exact ⟨he, rfl, hc.calls, hc.asyncCalls⟩

/-! ## §2. Bindings. -/

theorem field_declare (σ : Scope) (x y : String) : (σ.declare x).field y = σ.field y := by
  unfold Scope.declare
  split <;> rfl

/-- The value of a binding is walked behind a mark, so the null can be put in front of it. -/
theorem bindingValue_ok {init : Node} {mark : Nat}
    (h : (do
        let s ← get
        onFrames fun _ => s.frames.mark.2
        let r ← expr env init
        pure (s.frames.mark.1, r.1, r.2) : Walk (Nat × Node × Bool)) s =
      (.ok (mark, v, split), s')) :
    mark = s.frames.mark.1 ∧ ∃ code, Emits env (.expr init) s.scope [v] split code s'.scope ∧
      Frames.Extends s.frames.mark.2 s'.frames code ∧ Counted s s' code := by
  simp only [bind_ok, Prod.exists] at h
  obtain ⟨s₁, s₂, hg, _, s₃, hm, v', split', s₄, hv, h⟩ := h
  cases hg
  cases hm
  cases h
  obtain ⟨code, he, hx, hc⟩ := expr_yields hv
  exact ⟨rfl, code, he, hx, hc.calls, hc.asyncCalls⟩

theorem binding_bare {x : String} {b : Bool} (h : binding env x .absent s = (.ok b, s')) :
    b = false ∧ s'.scope = s.scope.declare x ∧
      s'.frames = s.frames.defer (.set (s.scope.field x) .null) ∧ s'.calls = s.calls ∧
      s'.asyncCalls = s.asyncCalls := by
  rw [← field_declare s.scope x x]
  cases h
  exact ⟨rfl, rfl, rfl, rfl, rfl⟩

theorem binding_bound {x : String} {init : Node} {b : Bool} (hi : init.isAbsent = false)
    (h : binding env x init s = (.ok b, s')) :
    ∃ v code, Emits env (.expr init) (s.scope.declare x) [v] b code s'.scope ∧
      Frames.Extends s.frames s'.frames
        (placeholder b (s.scope.field x) ++ code ++ [.set (s.scope.field x) v]) ∧
      Counted s s' (placeholder b (s.scope.field x) ++ code ++ [.set (s.scope.field x) v]) := by
  unfold binding at h
  simp only [bind_ok, hi] at h
  obtain ⟨_, s₂, hm, s₃, s₄, hg, h⟩ := h
  cases hm
  cases hg
  simp only [Bool.false_eq_true, if_false, bind_ok, Prod.exists, field_declare] at h
  obtain ⟨mark, v, split, s₅, hv, h⟩ := h
  obtain ⟨s₆, s₇, hq, hin, hq'⟩ := inside_quiet hv
  obtain ⟨rfl, code, he, hx, hc⟩ := bindingValue_ok hin
  rw [hq.scope, ← hq'.scope] at he
  rw [hq.frames, ← hq'.frames] at hx
  have hc' : Counted s s₅ code :=
    ⟨by rw [hq'.calls, hc.calls, hq.calls], by rw [hq'.asyncCalls, hc.asyncCalls, hq.asyncCalls]⟩
  have hp : Counted s s (placeholder split (s.scope.field x)) := by
    cases split <;> exact ⟨rfl, rfl⟩
  have hset : Counted s₅ s₅ [.set (s.scope.field x) v] := ⟨rfl, rfl⟩
  have hall := (hp.trans hc').trans hset
  -- only a value with instructions of its own needs the null in front of it
  cases split with
  | false =>
    cases h
    exact ⟨v, code, he, (Frames.Extends.mark s.frames).trans (hx.trans (.defer _ _)),
      hall.calls, hall.asyncCalls⟩
  | true =>
    rw [hq.frames] at h
    cases h
    exact ⟨v, code, he, (Frames.Extends.insertAt_mark _ hx).trans (.defer _ _),
      hall.calls, hall.asyncCalls⟩

theorem bindings_does {ds : List (String × Node)} {b : Bool}
    (h : bindings env ds s = (.ok b, s')) : Does env (.bindings ds) s b s' := by
  induction ds generalizing s b with
  | nil =>
    cases h
    exact ⟨[], .silent .bindingsNil rfl rfl rfl⟩
  | cons d ds ih =>
    obtain ⟨x, init⟩ := d
    rw [bindings] at h
    simp only [bind_ok] at h
    obtain ⟨split, s₁, hb, split', s₂, hr, h⟩ := h
    cases h
    obtain ⟨vs, code, he, hx, hc⟩ := ih hr
    cases hi : init.isAbsent with
    | true =>
      cases init <;> cases hi
      obtain ⟨rfl, hscope, hframes, hcalls, hasync⟩ := binding_bare hb
      rw [hscope] at he
      rw [hframes] at hx
      rw [Bool.or_false]
      have hset : Counted s s₁ [.set (s.scope.field x) .null] := ⟨hcalls, hasync⟩
      exact ⟨[], _, .bare he, (Frames.Extends.defer _ _).trans hx, hset.trans hc⟩
    | false =>
      obtain ⟨v, code', he', hx', hc'⟩ := binding_bound hi hb
      refine ⟨[], _, .bound he' he, ?_, ?_⟩
      · rw [List.append_cons]
        exact hx'.trans hx
      · rw [List.append_cons]
        exact hc'.trans hc

/-! ## §3. Branches and loops. -/

/-- A condition is collected by itself and then placed in the frame in use. -/
theorem condition_yields {b : Bool} (h : condition env n s = (.ok (v, b), s')) :
    Yields env (.expr n) s [v] b s' := by
  unfold condition at h
  simp only [bind_ok, Prod.exists] at h
  obtain ⟨v', b', list, s₁, hf, _, s₂, he, h⟩ := h
  cases he
  cases h
  have hcol : Collects env (.expr n) s [v] b list s₁ := by
    refine framed_collects (fun hin => ?_) hf
    obtain ⟨s₂, s₃, hq, hv, hq'⟩ := inside_quiet hin
    exact ((expr_yields hv).after hq).quiet hq'
  refine ⟨list, hcol.emits, ?_, hcol.counted.calls, hcol.counted.asyncCalls⟩
  show Frames.Extends s.frames (s₁.frames.emitAll list) list
  rw [hcol.frames]
  exact .emitAll _ _

theorem branch_does {c yes no : Node} {b : Bool}
    (hyes : ∀ {s s' b}, stmt env yes s = (.ok b, s') → Does env (.stmt yes) s b s')
    (hno : ∀ {s s' b}, stmt env no s = (.ok b, s') → Does env (.stmt no) s b s')
    (h : branch env c yes no (stmt env yes) (stmt env no) s = (.ok b, s')) :
    Does env (.stmt (.ifElse c yes no)) s b s' := by
  obtain ⟨s₀, s₁, hq, hin, hq'⟩ := inside_quiet h
  refine .between hq ?_ hq'
  simp only [bind_ok, Prod.exists] at hin
  obtain ⟨v, cs, s₂, hcond, ys, yesList, s₃, hy, yt, s₄, hyt, ns, noList, s₅, hn, nt, s₆, hnt,
    _, s₇, hrem, _, s₈, hdef, hin⟩ := hin
  cases hyt
  cases hnt
  cases hrem
  cases hdef
  cases hin
  obtain ⟨vs, hyes⟩ := region_collects hyes hy
  obtain ⟨ws, hno⟩ := region_collects hno hn
  obtain ⟨code, he, hx, hc⟩ := condition_yields hcond
  -- the two regions were collected elsewhere, so the frame in use holds the condition only
  have hframes : s₅.frames = s₂.frames := hno.frames.trans hyes.frames
  refine (Does.deferred (.branch he hyes.emits hno.emits) (hframes ▸ hx) ?_).between
    ⟨rfl, rfl, rfl, rfl⟩ ⟨rfl, rfl, rfl, rfl⟩
  exact (hc.trans (hyes.counted.trans hno.counted)).wrap (by simp [Instr.command])

theorem loopInit_yields {b : Bool}
    (hs : ∀ {s s' b}, stmt env n s = (.ok b, s') → Does env (.stmt n) s b s')
    (h : loopInit env n (stmt env n) s = (.ok b, s')) : Does env (.region n) s b s' := by
  unfold loopInit at h
  split at h
  · next ha =>
    cases n <;> cases ha
    cases h
    exact ⟨_, .silent (.void .region) rfl rfl rfl⟩
  · simp only [bind_ok, Prod.exists] at h
    obtain ⟨split, list, s₁, hr, _, s₂, he, h⟩ := h
    cases he
    cases h
    obtain ⟨vs, hcol⟩ := region_collects hs hr
    refine ⟨vs, list, hcol.emits, ?_, hcol.counted.calls, hcol.counted.asyncCalls⟩
    show Frames.Extends s.frames (s₁.frames.emitAll list) list
    rw [hcol.frames]
    exact .emitAll _ _

theorem loopTest_collects {b : Bool} {list : List Instr}
    (h : loopTest env n s = (.ok ((v, b), list), s')) :
    Collects env (.test n) s [v] b list s' := by
  refine framed_collects (fun {s₀ s₁} hin => ?_) h
  split at hin
  · next ha =>
    cases n <;> cases ha
    cases hin
    exact .silent (.void .test) rfl rfl rfl
  · simp only [bind_ok, Prod.exists] at hin
    obtain ⟨c, split, s₂, hcond, _, s₃, hd, hin⟩ := hin
    obtain ⟨s₄, s₅, hq, hv, hq'⟩ := inside_quiet hcond
    obtain ⟨code, he, hx, hc⟩ := ((expr_yields hv).after hq).quiet hq'
    cases hd
    cases hin
    exact ⟨_, .test he, hx.trans (.defer _ _), hc.trans ⟨rfl, rfl⟩⟩

theorem loopStep_collects {b : Bool} {list : List Instr}
    (h : loopStep env n s = (.ok ((v, b), list), s')) :
    Collects env (.step n) s [v] b list s' := by
  refine framed_collects (fun {s₀ s₁} hin => ?_) h
  split at hin
  · next ha =>
    cases n <;> cases ha
    cases hin
    exact .silent (.void .step) rfl rfl rfl
  · simp only [bind_ok, Prod.exists] at hin
    obtain ⟨e, split, s₂, hstep, hin⟩ := hin
    obtain ⟨s₄, s₅, hq, hv, hq'⟩ := inside_quiet hstep
    obtain ⟨code, he, hx, hc⟩ := ((expr_yields hv).after hq).quiet hq'
    refine Yields.leads (.step n) ?_
    cases split with
    | false =>
      cases hin
      exact ⟨_, .effect he, hx.trans (.defer _ _), hc.trans ⟨rfl, rfl⟩⟩
    | true =>
      cases hin
      exact ⟨_, .effect he, hx.trans (.refl _), hc.trans (.refl _)⟩

theorem loop_does {init cond step body : Node} {b : Bool}
    (hinit : ∀ {s s' b}, stmt env init s = (.ok b, s') → Does env (.stmt init) s b s')
    (hbody : ∀ {s s' b}, stmt env body s = (.ok b, s') → Does env (.stmt body) s b s')
    (h : loop env init cond step body (stmt env init) (stmt env body) s = (.ok b, s')) :
    Does env (.stmt (.forLoop init cond step body)) s b s' := by
  obtain ⟨s₀, s₁, hq, hin, hq'⟩ := inside_quiet h
  refine .between hq ?_ hq'
  simp only [bind_ok, Prod.exists] at hin
  obtain ⟨is, s₂, hi, c, cs, test, s₃, ht, e, es, stepList, s₄, hst, bs, bodyList, s₅, hb,
    _, s₆, hdef, hin⟩ := hin
  cases hdef
  cases hin
  obtain ⟨vs, code, he, hx, hc⟩ := loopInit_yields hinit hi
  have htest := loopTest_collects ht
  have hstep := loopStep_collects hst
  obtain ⟨ws, hbody⟩ := region_collects hbody hb
  -- test, step and body were collected elsewhere; the initializer went into the frame in use
  have hframes : s₅.frames = s₂.frames := hbody.frames.trans (hstep.frames.trans htest.frames)
  refine Does.deferred (.loop he htest.emits hstep.emits hbody.emits) (hframes ▸ hx) ?_
  exact (hc.trans ((htest.counted.trans hstep.counted).trans hbody.counted)).wrap
    (by simp [Instr.command])

/-! ## §4. Statements. -/

theorem passed_does {b : Bool} (hp : isPassed n = true) (h : passed env n s = (.ok b, s')) :
    Does env (.stmt n) s b s' := by
  unfold passed at h
  simp only [bind_ok] at h
  obtain ⟨m, s₁, hu, _, s₂, hd, h⟩ := h
  obtain ⟨rfl, q⟩ := unsplit_ok hu
  cases hd
  cases h
  refine ⟨[], [.leaf n.tag (copy s.scope n) false], ?_, ?_, ?_, ?_⟩
  · show Emits env _ _ _ _ _ s₁.scope
    rw [q.scope]
    exact .passed hp
  · show Frames.Extends s.frames (s₁.frames.defer _) _
    rw [q.frames]
    exact .defer _ _
  · show s₁.calls = _
    rw [q.calls]
    cases n <;> cases hp <;> rfl
  · show s₁.asyncCalls = _
    rw [q.asyncCalls]
    cases n <;> cases hp <;> rfl

theorem jump_does {b : Bool} (hp : isPassed n = true)
    (hcopy : ∀ σ, copy σ n = n ∧ copyScope σ n = σ)
    (h : (do defer (.leaf n.tag n false); return false : Walk Bool) s = (.ok b, s')) :
    Does env (.stmt n) s b s' := by
  cases h
  have he : Emits env (.stmt n) s.scope [] false _ _ := .passed hp
  rw [(hcopy s.scope).1, (hcopy s.scope).2] at he
  exact ⟨[], _, he, .defer _ _, by cases n <;> cases hp <;> rfl, by cases n <;> cases hp <;> rfl⟩

mutual

theorem stmt_does {n : Node} {s s' : State} {b : Bool} (h : stmt env n s = (.ok b, s')) :
    Does env (.stmt n) s b s' := by
  cases n with
  | stat e =>
    rw [stmt] at h
    obtain ⟨vs, hv⟩ := effect_yields expr_yields h
    exact ⟨vs, hv.leads (.stat e)⟩
  | var ds =>
    rw [stmt] at h
    obtain ⟨vs, hv⟩ := bindings_does h
    exact ⟨vs, hv.leads (.var ds)⟩
  | block ns =>
    rw [stmt] at h
    obtain ⟨vs, hv⟩ := stmts_does h
    exact ⟨vs, hv.leads (.block ns)⟩
  | splice ns =>
    rw [stmt] at h
    obtain ⟨vs, hv⟩ := stmts_does h
    exact ⟨vs, hv.leads (.splice ns)⟩
  | ifElse c yes no =>
    rw [stmt] at h
    exact branch_does (fun h => stmt_does h) (fun h => stmt_does h) h
  | forLoop init cond step body =>
    rw [stmt] at h
    exact loop_does (fun h => stmt_does h) (fun h => stmt_does h) h
  | defun name params ns =>
    rw [stmt] at h
    obtain ⟨s₀, s₁, hq, hin, hq'⟩ := inside_quiet h
    refine .between hq ?_ hq'
    simp only [bind_ok, Prod.exists] at hin
    obtain ⟨split, list, s₂, hf, _, s₃, hd, hin⟩ := hin
    cases hd
    cases hin
    obtain ⟨s₃, hbody, rfl, rfl⟩ := framed_ok.mp hf
    obtain ⟨vs, code, he, hx, hc⟩ := stmts_does hbody
    rw [Frames.pop?_of_extends_push hx]
    have hcode : Counted s₀ s₃ ([] ++ [.defun name params code]) :=
      .wrap ⟨hc.calls, hc.asyncCalls⟩ (by simp [Instr.command])
    exact ⟨[], _, .declaration he, .defer _ _, hcode.calls, hcode.asyncCalls⟩
  | breakTo _ | continueTo _ | debugger =>
    rw [stmt] at h
    exact jump_does rfl (fun σ => ⟨rfl, rfl⟩) h
  | label _ _ | whileLoop _ _ | doLoop _ _ | tryCatch _ _ _ | throw _ | switch _ _ | forIn _ _ _
  | withObject _ _ | ret _ | const _ =>
    rw [stmt] at h
    exact passed_does rfl h
  | _ =>
    simp only [stmt] at h
    exact absurd h misplaced_ne_ok
termination_by structural n

theorem stmts_does {ns : List Node} {s s' : State} {b : Bool} (h : stmts env ns s = (.ok b, s')) :
    Does env (.stmts ns) s b s' := by
  cases ns with
  | nil =>
    rw [stmts] at h
    cases h
    exact ⟨[], .silent .stmtsNil rfl rfl rfl⟩
  | cons n ns =>
    rw [stmts] at h
    simp only [bind_ok] at h
    obtain ⟨split, s₁, hn, split', s₂, hns, h⟩ := h
    cases h
    obtain ⟨vs, code, he, hx, hc⟩ := statementOr_does (fun h => stmt_does h) hn
    obtain ⟨ws, code', he', hx', hc'⟩ := stmts_does hns
    exact ⟨[], code ++ code', .stmtsCons he he', hx.trans hx', hc.trans hc'⟩
termination_by structural ns

end

end

end Walk

/-! ## §5. Whole units. -/

/-- What the walk of a unit is told about names. -/
def Naming.surface (naming : Naming) (isAsync : String → Bool) : Surface :=
  { isAsync, returnValue := Naming.dotted naming.returnValue }

/-- The scope a walk starts in. -/
def Naming.scope (naming : Naming) (body : List Node) : Scope :=
  Scope.declareAll { container := naming.container, stem := naming.stem } (Node.varsAll body)

/-- A transformed unit and the derivation it comes from. -/
structure Transformed.Derived (t : Transformed) (naming : Naming) (isAsync : String → Bool)
    (body : List Node) (σ : Scope) : Prop where
  emits : ∃ vs split, Walk.Emits (naming.surface isAsync) (.stmts body) (naming.scope body) vs split
    t.program σ
  locals : t.locals = σ.names
  stats : t.stats = { temps := σ.temps, calls := Instr.callCount t.program,
                      asyncCalls := Instr.asyncCount t.program,
                      instructions := Instr.count t.program, locals := σ.names.length }

/-- A walk of a unit that ends well leaves one frame, which holds the program. -/
theorem finish_walkUnit {naming : Naming} {isAsync : String → Bool} {body : List Node} {b : Bool}
    {s : State} (hw : walkUnit naming isAsync body = (.ok b, s)) :
    ∃ t, s.finish = .ok t ∧ t.Derived naming isAsync body s.scope := by
  obtain ⟨s₀, s₁, hq, hb, hq'⟩ := Walk.inside_quiet hw
  obtain ⟨vs, code, he, hx, hc⟩ := Walk.Does.between hq (Walk.stmts_does hb) hq'
  have hbelow : s.frames.below = [] := hx.below
  have hroot : s.frames.root.1 = code := by
    unfold Frames.root Frames.rootFrame
    rw [hbelow]
    exact hx.content
  have hcalls : s.calls = Instr.callCount code := by
    rw [hc.calls]
    exact Nat.zero_add _
  have hasync : s.asyncCalls = Instr.asyncCount code := by
    rw [hc.asyncCalls]
    exact Nat.zero_add _
  simp only [State.finish, Frames.balanced, hbelow, hroot]
  exact ⟨_, rfl, ⟨vs, b, he⟩, rfl, by simp only [hcalls, hasync]⟩

theorem transform_emits {naming : Naming} {isAsync : String → Bool} {unit : Node}
    {t : Transformed} (h : (transform naming isAsync unit).1 = .ok t) :
    ∃ body σ, unit = .toplevel body ∧ t.Derived naming isAsync body σ := by
  cases unit with
  | toplevel body =>
    rcases hw : walkUnit naming isAsync body with ⟨r, s⟩
    simp only [transform, transformBody, hw] at h
    cases r with
    | error e => cases h
    | ok b =>
      obtain ⟨t', ht', hd⟩ := finish_walkUnit hw
      rw [ht'] at h
      cases h
      exact ⟨body, s.scope, rfl, hd⟩
  | _ => cases h

/-- The tree of a transformed unit is the one that its program stands for. -/
theorem transform_tree {naming : Naming} {isAsync : String → Bool} {unit : Node}
    {t : Transformed} (h : (transform naming isAsync unit).1 = .ok t) :
    t.tree = .toplevel (Node.flatten (rebuildAll t.program)) := by
  cases unit with
  | toplevel body =>
    simp only [transform, transformBody] at h
    split at h
    · cases h
    · split at h
      · cases h
      · next hfinish =>
        cases h
        unfold State.finish at hfinish
        split at hfinish <;> cases hfinish
        rfl
  | _ => cases h

end Resumable.Program
