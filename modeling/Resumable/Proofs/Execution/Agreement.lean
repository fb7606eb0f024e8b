/-
  Resumable.Proofs.Execution.Agreement — a program and its tree do the same.

  The tree of a program is read off its instructions, but a loop is written in another way: a split
  condition is tested inside the body and a split step stands at the end of it.  `Shaped` says what
  the instructions of a walk look like, so that the tree's way of writing a loop can be recognised,
  and `means_rebuild` follows the instructions down.

  A branch whose sides were split is not covered: its tree evaluates both sides.  Nor is a continue
  that would skip a split step in the tree.

  Main statement: `tree_agrees`.
-/
import Resumable.Proofs.Execution.Effects
import Resumable.Proofs.Walk.Nesting
import Resumable.Proofs.Walk.Statement

namespace Resumable

namespace Program

/-! ## §1. What the instructions of a walk look like. -/

namespace Instr

/-- A synchronous statement or a call. -/
inductive Plain : Instr → Prop
  | stat (e : Node) : Plain (.stat e)
  | call (e : Node) (async : Bool) : Plain (.leaf "call" (.stat e) async)

/-- The condition of a loop, its list, and whether it was split. -/
inductive TestShape : Node → List Instr → Bool → Prop
  | none : TestShape .absent [] false
  | kept {c : Node} (h : c.isAbsent = false) : TestShape c [.leaf "test" c false] false
  | split {c : Node} {code : List Instr} (h : ∀ i ∈ code, Plain i) :
      TestShape c (code ++ [.leaf "test" c false]) true

/-- The step of a loop as far as it was kept, and its list. -/
inductive StepShape : Node → List Instr → Prop
  | kept {e : Node} (h : e.isExpression = true) : StepShape e [.stat e]
  | split {code : List Instr} (h : ∀ i ∈ code, Plain i) : StepShape .absent code

/-- An instruction that a walk can make. -/
inductive Shaped : Instr → Prop
  | plain {i : Instr} (h : Plain i) : Shaped i
  | passed {n : Node} (h : Walk.isPassed n = true) : Shaped (.leaf n.tag n false)
  | branch {c : Node} {yes no : List Instr} {hasElse : Bool} {shape : Shape}
      {yesTemp noTemp : Option String} (hyes : ∀ i ∈ yes, Shaped i) (hno : ∀ i ∈ no, Shaped i)
      (helse : hasElse = false → no = []) (hyesTemp : shape.yes = false → yesTemp = none)
      (hnoTemp : shape.no = false → noTemp = none) :
      Shaped (.branch c yes no hasElse shape yesTemp noTemp)
  | loop {c e : Node} {test step body : List Instr} {condSplit : Bool}
      (htest : TestShape c test condSplit) (hstep : StepShape e step)
      (hbody : ∀ i ∈ body, Shaped i) : Shaped (.loop c test step body condSplit e)
  | defun {name : String} {params : List String} {body : List Instr}
      (hbody : ∀ i ∈ body, Shaped i) : Shaped (.defun name params body)

end Instr

namespace Walk

open Instr (Plain TestShape StepShape Shaped)

variable {env : Surface} {job : Job} {σ σ' : Scope} {n v : Node} {vs : List Node} {split : Bool}
  {code : List Instr}

/-- Whether a job is the walk of values. -/
def Job.isValue : Job → Bool
  | .expr _ | .operands _ => true
  | _ => false

theorem resolve_isExpression (σ : Scope) (x : String) : (σ.resolve x).isExpression = true := by
  unfold Scope.resolve
  split <;> rfl

theorem placeFrom_isExpression (h : isTarget n = true) :
    (placeFrom σ n vs).isExpression = true := by
  cases n with
  | name x => exact resolve_isExpression σ x
  | dot b f => cases vs <;> rfl
  | sub b i =>
    match vs with
    | [] | [_] | _ :: _ :: _ => rfl
  | _ => cases h

theorem assemble_isExpression (h : form n = .combined ∨ form n = .assigned) :
    (assemble σ n vs).isExpression = true := by
  cases n with
  | unary side op e => cases side <;> rfl
  | assign op t e | array es | object ps => rfl
  | new c as | dot b f => cases vs <;> rfl
  | binary op l r | sub b i =>
    match vs with
    | [] | [_] | _ :: _ :: _ => rfl
  | _ => rcases h with h | h <;> cases h

theorem isExpression_of_literal (h : form n = .literal) : n.isExpression = true := by
  cases n with
  | num _ | string _ | atom _ | regexp _ _ => rfl
  | assign op t e =>
    simp only [form] at h
    split at h <;> cases h
  | _ => cases h

theorem copy_isExpression (h : form n = .copied) : (copy σ n).isExpression = true := by
  cases n with
  | conditional _ _ _ | seq _ | function _ _ _ => rfl
  | assign op t e =>
    simp only [form] at h
    split at h <;> cases h
  | _ => cases h

/-- A walk of values makes statements and calls only, none at all unless something was split, and
    what stands for a value is an expression. -/
theorem Emits.value_code (h : Emits env job σ vs split code σ') :
    job.isValue = true → (∀ i ∈ code, Plain i) ∧ (split = false → code = []) ∧
      ∀ v ∈ vs, v.isExpression = true := by
  induction h with
  | reference x =>
    intro _
    simpa using resolve_isExpression _ x
  | literal hf =>
    intro _
    simpa using isExpression_of_literal hf
  | copied hf =>
    intro _
    simpa using copy_isExpression hf
  | kept hf _ ih =>
    intro _
    obtain ⟨hplain, hcode, -⟩ := ih rfl
    refine ⟨hplain, hcode, ?_⟩
    simpa using assemble_isExpression hf
  | captured _ _ ih =>
    intro _
    obtain ⟨hplain, -, -⟩ := ih rfl
    refine ⟨fun i hi => ?_, by simp, by simp [Node.isExpression, Node.kind?, Kind.isExpression]⟩
    rcases List.mem_append.mp hi with hi | hi
    · exact hplain i hi
    · rw [List.mem_singleton.mp hi]
      exact .stat _
  | assigned ht _ ih =>
    intro _
    obtain ⟨hplain, -, -⟩ := ih rfl
    refine ⟨fun i hi => ?_, by simp, by simpa using placeFrom_isExpression ht⟩
    rcases List.mem_append.mp hi with hi | hi
    · exact hplain i hi
    · rw [List.mem_singleton.mp hi]
      exact .stat _
  | called _ ih =>
    intro _
    obtain ⟨hplain, -, -⟩ := ih rfl
    refine ⟨fun i hi => ?_, by simp, by simp [Node.isExpression, Node.kind?, Kind.isExpression]⟩
    simp only [List.mem_append, List.mem_cons, List.not_mem_nil, or_false] at hi
    rcases hi with hi | rfl | rfl
    · exact hplain i hi
    · exact .call _ _
    · exact .stat _
  | operandsNil => simp
  | operandsCons _ _ ih ih' =>
    intro _
    obtain ⟨hplain, hcode, hvs⟩ := ih rfl
    obtain ⟨hplain', hcode', hvs'⟩ := ih' rfl
    refine ⟨fun i hi => ?_, fun hs => ?_, fun w hw => ?_⟩
    · exact (List.mem_append.mp hi).elim (hplain i) (hplain' i)
    · obtain ⟨hs, hs'⟩ := Bool.or_eq_false_iff.mp hs
      rw [hcode hs, hcode' hs']
      rfl
    · exact (List.mem_cons.mp hw).elim (fun hw => hvs w (by simp [hw])) (hvs' w)
  | leads hl => cases hl <;> exact fun h => absurd h Bool.false_ne_true
  | void hv => cases hv <;> exact fun h => absurd h Bool.false_ne_true
  | _ => exact fun h => absurd h Bool.false_ne_true

theorem Emits.plain (h : Emits env (.expr n) σ vs split code σ') : ∀ i ∈ code, Plain i :=
  (h.value_code rfl).1

theorem Emits.kept_value (h : Emits env (.expr n) σ [v] false code σ') :
    code = [] ∧ v.isExpression = true := by
  obtain ⟨-, hcode, hv⟩ := h.value_code rfl
  exact ⟨hcode rfl, hv v List.mem_cons_self⟩

theorem Emits.test_shape (h : Emits env (.test n) σ [v] split code σ') :
    TestShape v code split := by
  cases h with
  | void => exact .none
  | leads hl => cases hl
  | @test _ _ _ _ _ code value =>
    cases split with
    | true => exact .split value.plain
    | false =>
      obtain ⟨rfl, hv⟩ := value.kept_value
      exact .kept (Node.isAbsent_of_isExpression hv)

theorem Emits.step_shape (h : Emits env (.step n) σ [v] split code σ') :
    StepShape (if split then .absent else v) code := by
  cases h with
  | void => exact .split (by simp)
  | leads hl done =>
    cases hl
    cases done with
    | void hv => cases hv
    | leads hl => cases hl
    | @effect _ _ _ _ _ code value =>
      cases split with
      | true =>
        show StepShape .absent (code ++ [])
        rw [List.append_nil]
        exact .split value.plain
      | false =>
        obtain ⟨rfl, hv⟩ := value.kept_value
        exact .kept hv

/-- A copy of a statement that is passed through is a statement of the same kind. -/
theorem isPassed_copy (h : isPassed n = true) :
    isPassed (copy σ n) = true ∧ (copy σ n).tag = n.tag := by
  cases n with
  | forIn init object body =>
    cases init with
    | var ds =>
      match ds with
      | [] | [_] | _ :: _ :: _ => exact ⟨rfl, rfl⟩
    | _ => exact ⟨rfl, rfl⟩
  | breakTo _ | continueTo _ | debugger | label _ _ | whileLoop _ _ | doLoop _ _ | tryCatch _ _ _
  | throw _ | switch _ _ | withObject _ _ | ret _ | const _ => exact ⟨rfl, rfl⟩
  | _ => cases h

/-- A side that was left out has no instructions. -/
theorem region_absent (h : Emits env (.region n) σ vs split code σ')
    (hn : n.isAbsent = true) : code = [] := by
  cases n <;> cases hn
  cases h with
  | void => rfl
  | leads hl done =>
    cases hl
    cases done with
    | leads hl =>
      cases hl with
      | expression h => cases h
    | void hv => cases hv
    | passed h => cases h

/-- Every instruction of a walk is of one of the shapes; only the list of a test ends otherwise. -/
theorem Emits.shaped (h : Emits env job σ vs split code σ') :
    (∀ m, job ≠ .test m) → ∀ i ∈ code, Shaped i := by
  induction h with
  | reference | literal | copied | operandsNil | void | stmtsNil | bindingsNil => simp
  | kept _ _ ih => exact fun _ => ih nofun
  | leads hl _ ih =>
    intro _
    cases hl <;> exact ih nofun
  | captured _ _ ih | assigned _ _ ih =>
    intro _
    exact List.forall_mem_append.mpr ⟨ih nofun, List.forall_mem_singleton.mpr (.plain (.stat _))⟩
  | called _ ih =>
    intro _
    refine List.forall_mem_append.mpr ⟨ih nofun, ?_⟩
    exact List.forall_mem_cons.mpr
      ⟨.plain (.call _ _), List.forall_mem_singleton.mpr (.plain (.stat _))⟩
  | operandsCons _ _ ih ih' | stmtsCons _ _ ih ih' =>
    exact fun _ => List.forall_mem_append.mpr ⟨ih nofun, ih' nofun⟩
  | @effect _ _ _ v split _ _ ih =>
    intro _
    refine List.forall_mem_append.mpr ⟨ih nofun, ?_⟩
    cases split with
    | false => exact List.forall_mem_singleton.mpr (.plain (.stat v))
    | true => exact List.forall_mem_nil _
  | branch cond yesDone noDone ih ih₁ ih₂ =>
    intro _
    refine List.forall_mem_append.mpr ⟨ih nofun, List.forall_mem_singleton.mpr ?_⟩
    refine .branch (ih₁ nofun) (ih₂ nofun) (fun he => ?_) (fun hs => ?_) (fun hs => ?_)
    · exact region_absent noDone (by simpa using he)
    · exact if_neg (by simpa using hs)
    · exact if_neg (by simpa using hs)
  -- what ends the list of a test has no shape of its own; the case of a loop reads the whole list
  | test => exact fun hn => absurd rfl (hn _)
  | loop initDone testDone stepDone bodyDone ih _ _ ih₃ =>
    intro _
    refine List.forall_mem_append.mpr ⟨ih nofun, List.forall_mem_singleton.mpr ?_⟩
    exact .loop testDone.test_shape stepDone.step_shape (ih₃ nofun)
  | declaration _ ih => exact fun _ => List.forall_mem_singleton.mpr (.defun (ih nofun))
  | @passed σ n hp =>
    intro _
    obtain ⟨hcopy, htag⟩ := isPassed_copy (σ := σ) hp
    rw [← htag]
    exact List.forall_mem_singleton.mpr (.passed hcopy)
  | bare _ ih => exact fun _ => List.forall_mem_cons.mpr ⟨.plain (.stat _), ih nofun⟩
  | @bound σ _ _ x _ _ _ _ split _ _ _ _ _ ih ih' =>
    intro _
    have hfront : ∀ i ∈ placeholder split (σ.field x), Shaped i := by
      cases split with
      | false => exact List.forall_mem_nil _
      | true => exact List.forall_mem_singleton.mpr (.plain (.stat _))
    refine List.forall_mem_append.mpr ⟨List.forall_mem_append.mpr ⟨hfront, ih nofun⟩, ?_⟩
    exact List.forall_mem_cons.mpr ⟨.plain (.stat _), ih' nofun⟩

end Walk

/-! ## §2. Programs whose tree does the same. -/

namespace Instr

/-- Whether neither side of a branch was split. -/
def sidesKept : Instr → Bool
  | branch _ _ _ _ shape _ _ => !shape.yes && !shape.no
  | _ => true

/-- Whether a jump has no label. -/
def unlabelled : Instr → Bool
  | leaf _ (.breakTo label) _ => label == ""
  | leaf _ (.continueTo label) _ => label == ""
  | _ => true

mutual

/-- Whether an instruction may continue the loop around it. -/
def continues : Instr → Bool
  | leaf command _ _ => command == "continue"
  | branch _ yes no _ _ _ _ => continuesAny yes || continuesAny no
  | loop _ _ _ _ _ _ => false
  | defun _ _ _ => false

/-- Whether an instruction of a list may continue the loop around the list. -/
def continuesAny : List Instr → Bool
  | [] => false
  | i :: rest => continues i || continuesAny rest

end

/-- Whether a loop whose step was split is never continued. -/
def stepReached : Instr → Bool
  | loop _ _ step body _ stepExpr => !stepExpr.isAbsent || step.isEmpty || !continuesAny body
  | _ => true

/-- What an instruction must be like for its tree to do the same. -/
structure Clear (i : Instr) : Prop where
  sides : i.sidesKept = true
  labels : i.unlabelled = true
  steps : i.stepReached = true

end Instr

end Program

namespace Execution.Interpretation

open Program (Instr rebuild rebuildAll)
open Program.Instr (Plain TestShape StepShape Shaped Clear continues continuesAny walkAll)
open Meaning (test?)

variable {σ : Type} (I : Interpretation σ)

/-! ## §3. Straight code. -/

theorem means_expression {e : Node} (h : e.isExpression = true) :
    I.means e = I.act (.stat e) := by
  cases e with
  | unary side op e => cases side <;> rfl
  | name _ | num _ | string _ | atom _ | regexp _ _ | array _ | object _ | call _ _ | new _ _
  | binary _ _ _ | assign _ _ _ | dot _ _ | sub _ _ | conditional _ _ _ | seq _
  | function _ _ _ => rfl
  | _ => cases h

theorem runs_stat (e : Node) : I.runs (.stat e) = I.act (.stat e) := rfl

theorem runs_plain {i : Instr} (h : Plain i) :
    I.means (rebuild i) = I.runs i ∧ (I.runs i).Straight ∧ test? i = none := by
  cases h with
  | stat e => exact ⟨rfl, I.act_straight _, rfl⟩
  | call e async => exact ⟨rfl, I.act_straight _, rfl⟩

theorem rebuildAll_append (xs ys : List Instr) :
    rebuildAll (xs ++ ys) = rebuildAll xs ++ rebuildAll ys := by
  induction xs with
  | nil => rfl
  | cons x xs ih => rw [List.cons_append, rebuildAll, rebuildAll, ih, List.cons_append]

theorem runsAll_plain {code : List Instr} (h : ∀ i ∈ code, Plain i) :
    I.meansAll (rebuildAll code) = I.runsAll code ∧ (I.runsAll code).Straight := by
  induction code with
  | nil => exact ⟨rfl, Effect.straight_skip⟩
  | cons i code ih =>
    obtain ⟨hi, hcode⟩ := List.forall_mem_cons.mp h
    obtain ⟨hmeans, hstraight, -⟩ := I.runs_plain hi
    obtain ⟨hmeans', hstraight'⟩ := ih hcode
    refine ⟨?_, hstraight.andThen hstraight'⟩
    rw [rebuildAll, meansAll, runsAll, hmeans, hmeans']

/-- A test behind code breaks where a negated break behind the code does. -/
theorem guard_tests {c : Node} {code : List Instr} (h : ∀ i ∈ code, Plain i) :
    (I.tests (code ++ [.leaf "test" c false])).guard =
      I.meansAll (rebuildAll code ++ [.ifElse (.unary .before "!" c) (.breakTo "") .absent]) := by
  induction code with
  | nil => exact (I.guard_judged c).trans (I.meansAll_one _).symm
  | cons i code ih =>
    obtain ⟨hi, hcode⟩ := List.forall_mem_cons.mp h
    obtain ⟨hmeans, hstraight, htest⟩ := I.runs_plain hi
    -- plain code is no test, so it is run first
    have htests : I.tests (i :: (code ++ [.leaf "test" c false])) =
        .after (I.runs i) (I.tests (code ++ [.leaf "test" c false])) := by
      rw [tests]
      intro c' hc'
      rw [htest] at hc'
      cases hc'
    rw [List.cons_append, htests, Test.guard_after hstraight, ih hcode, rebuildAll,
      List.cons_append, meansAll, hmeans]

/-- A loop with its test where the tree has it. -/
theorem loop_test {c : Node} {test : List Instr} {condSplit : Bool}
    (h : TestShape c test condSplit) (body step : Effect σ) :
    Effect.Loop (I.tests test) body step =
      Effect.Loop (I.holds (if condSplit then .absent else c))
        ((I.meansAll (if condSplit then
            (rebuildAll test).dropLast ++ [.ifElse (.unary .before "!" c) (.breakTo "") .absent]
          else [])).andThen body) step := by
  cases h with
  | none => exact congrArg (Effect.Loop _ · _) (Effect.skip_andThen body).symm
  | kept hc =>
    have hholds : I.holds c = .judged (I.eval c) := by
      unfold holds
      rw [hc]
      rfl
    show _ = Effect.Loop (I.holds c) (Effect.skip.andThen body) step
    rw [hholds, Effect.skip_andThen]
    rfl
  | split hcode =>
    rw [if_pos rfl, if_pos rfl, rebuildAll_append, Effect.loop_guarded, I.guard_tests hcode]
    show _ = Effect.Loop _ (Effect.andThen (I.meansAll ((_ ++ [_]).dropLast ++ _)) body) step
    rw [List.dropLast_concat]
    rfl

mutual

/-- Only what may continue a loop continues it. -/
theorem continues_of_runs {i : Instr} {s s' : σ} (h : I.runs i s .continued s') :
    continues i = true := by
  cases i with
  | leaf command code async =>
    rw [runs] at h
    rw [continues]
    by_cases hc : command = "continue"
    · simp [hc]
    · rw [if_neg hc] at h
      split at h
      · cases h.1
      · rcases I.act_straight _ _ _ _ h with h | h <;> cases h
  | branch c yes no hasElse shape yesTemp noTemp =>
    rw [runs] at h
    obtain ⟨v, m, -, h⟩ := h
    rw [continues, Bool.or_eq_true]
    cases v with
    | true => exact .inl (continuesAny_of_runsAll h)
    | false => exact .inr (continuesAny_of_runsAll h)
  | loop c test step body condSplit e =>
    rw [runs] at h
    rcases Effect.Loop.straight _ _ _ h with h | h <;> cases h
  | defun name params body =>
    rw [runs] at h
    cases h.1
termination_by structural i

theorem continuesAny_of_runsAll {is : List Instr} {s s' : σ}
    (h : I.runsAll is s .continued s') : continuesAny is = true := by
  cases is with
  | nil =>
    rw [runsAll] at h
    cases h.1
  | cons i is =>
    rw [runsAll] at h
    rw [continuesAny, Bool.or_eq_true]
    rcases h with ⟨m, -, h⟩ | ⟨-, h⟩
    · exact .inr (continuesAny_of_runsAll h)
    · exact .inl (continues_of_runs h)
termination_by structural is

end

/-- A loop with its step where the tree has it. -/
theorem loop_step {e : Node} {step body : List Instr} (h : StepShape e step)
    (hreached : (!e.isAbsent || step.isEmpty || !continuesAny body) = true) (test : Test σ) :
    Effect.Loop test (I.runsAll body) (I.runsAll step) =
      Effect.Loop test
        ((I.runsAll body).andThen (I.meansAll (if e.isAbsent then rebuildAll step else [])))
        (I.means e) := by
  cases h with
  | kept he =>
    have hmeans : I.means e = I.runsAll [.stat e] := by
      rw [runsAll, runsAll, Effect.andThen_skip, runs_stat, I.means_expression he]
    rw [Node.isAbsent_of_isExpression he, if_neg Bool.false_ne_true, meansAll,
      Effect.andThen_skip, hmeans]
  | split hcode =>
    obtain ⟨hmeans, hstraight⟩ := I.runsAll_plain hcode
    show _ = Effect.Loop test ((I.runsAll body).andThen (I.meansAll (rebuildAll step))) _
    rw [hmeans, means]
    cases hs : step with
    | nil => rw [runsAll, Effect.andThen_skip]
    | cons i step' =>
      -- behind the body a continue would skip the step, so there must be none
      have hbody : continuesAny body = false := by simpa [hs, Node.isAbsent] using hreached
      rw [← hs]
      refine Effect.loop_absorbs test (fun s s' hcont => ?_) hstraight
      rw [I.continuesAny_of_runsAll hcont] at hbody
      cases hbody

/-! ## §4. Instructions and the statements that stand for them. -/

theorem means_passed {n : Node} (hp : Program.Walk.isPassed n = true)
    (hl : (Instr.leaf n.tag n false).unlabelled = true) :
    I.means (rebuild (.leaf n.tag n false)) = I.runs (.leaf n.tag n false) := by
  cases n with
  | breakTo label | continueTo label =>
    have hlabel : label = "" := by simpa [Instr.unlabelled] using hl
    subst hlabel
    rfl
  | debugger | label _ _ | whileLoop _ _ | doLoop _ _ | tryCatch _ _ _ | throw _ | switch _ _
  | forIn _ _ _ | withObject _ _ | ret _ | const _ => rfl
  | _ => cases hp

theorem clear_of_inner {i j : Instr} (h : ∀ k ∈ i.walk, Clear k) (hj : j ∈ walkAll i.inner) :
    Clear j :=
  h j (by rw [Instr.walk_eq]; exact List.mem_cons_of_mem _ hj)

mutual

/-- The statement that stands for an instruction does what the instruction does. -/
theorem means_rebuild {i : Instr} (hi : Shaped i) (hc : ∀ j ∈ i.walk, Clear j) :
    I.means (rebuild i) = I.runs i := by
  have hself : Clear i := hc i (by rw [Instr.walk_eq]; exact List.mem_cons_self)
  have hinner := @clear_of_inner i
  cases i with
  | leaf command code async =>
    cases hi with
    | plain hp => exact (I.runs_plain hp).1
    | passed hp => exact I.means_passed hp hself.labels
  | branch c yes no hasElse shape yesTemp noTemp =>
    cases hi with
    | plain hp => cases hp
    | branch hyes hno helse hyesTemp hnoTemp =>
      have hsides : shape.yes = false ∧ shape.no = false := by
        simpa [Instr.sidesKept] using hself.sides
      have hyes' := meansAll_rebuildAll hyes fun j hj =>
        hinner hc (by rw [Instr.inner, Instr.walkAll_append]; exact List.mem_append_left _ hj)
      have hno' := meansAll_rebuildAll hno fun j hj =>
        hinner hc (by rw [Instr.inner, Instr.walkAll_append]; exact List.mem_append_right _ hj)
      -- without a temp nothing is placed in front of the branch
      obtain rfl := hyesTemp hsides.1
      obtain rfl := hnoTemp hsides.2
      rw [runs, ← hyes', ← hno']
      cases hasElse with
      | true => rfl
      | false =>
        obtain rfl := helse rfl
        rfl
  | loop c test step body condSplit e =>
    cases hi with
    | plain hp => cases hp
    | loop htest hstep hbody =>
      have hbody' := meansAll_rebuildAll hbody fun j hj =>
        hinner hc (by rw [Instr.inner, Instr.walkAll_append]; exact List.mem_append_right _ hj)
      -- the step goes first, while the body is still the one that the condition speaks of
      rw [runs, I.loop_step hstep hself.steps, I.loop_test htest]
      show (I.means .absent).andThen (Effect.Loop _ (I.meansAll (_ ++ _ ++ _)) (I.means e)) = _
      rw [means, Effect.skip_andThen, meansAll_append, meansAll_append, hbody',
        Effect.andThen_assoc]
  | defun name params body =>
    cases hi with
    | plain hp => cases hp
    | defun hbody =>
      have hbody' := meansAll_rebuildAll hbody fun j hj => hinner hc hj
      rw [rebuild, means, runs, hbody']
termination_by structural i

theorem meansAll_rebuildAll {is : List Instr} (his : ∀ i ∈ is, Shaped i)
    (hc : ∀ j ∈ walkAll is, Clear j) : I.meansAll (rebuildAll is) = I.runsAll is := by
  cases is with
  | nil => rfl
  | cons i is =>
    obtain ⟨hi, his⟩ := List.forall_mem_cons.mp his
    rw [walkAll] at hc
    obtain ⟨hci, hcis⟩ := List.forall_mem_append.mp hc
    rw [rebuildAll, meansAll, runsAll, means_rebuild hi hci, meansAll_rebuildAll his hcis]
termination_by structural is

end

end Execution.Interpretation

/-! ## §5. Whole programs. -/

namespace Execution

open Program (Instr Naming Transformed transform)
open Program.Instr (walkAll)

/-- The tree of a program does what the program does, whatever code and conditions mean: as long as
    no side of a branch was split, no jump has a label, and no loop with a split step is
    continued. -/
theorem tree_agrees {σ : Type} (I : Interpretation σ) (naming : Naming) (isAsync : String → Bool)
    (unit : Node) (t : Transformed) (h : (transform naming isAsync unit).1 = .ok t)
    (sides : ∀ i ∈ walkAll t.program, i.sidesKept = true)
    (labels : ∀ i ∈ walkAll t.program, i.unlabelled = true)
    (steps : ∀ i ∈ walkAll t.program, i.stepReached = true) :
    I.means t.tree = I.runsAll t.program := by
  obtain ⟨body, σ', -, hd⟩ := Program.transform_emits h
  obtain ⟨vs, split, he⟩ := hd.emits
  rw [Program.transform_tree h, Interpretation.means, I.meansAll_flatten]
  exact I.meansAll_rebuildAll (he.shaped nofun) fun i hi => ⟨sides i hi, labels i hi, steps i hi⟩

/-- Code is written down, conditions come out either way, and a declared function is run. -/
def recording : Interpretation (List Node) where
  act n := .always fun s s' => s' = s ++ [n]
  act_straight _ _ _ _ h := .inl h.1
  eval _ s _ s' := s' = s
  eval_not _ _ _ _ := Iff.rfl
  declare _ _ body s s' := ∃ e, body s e s'

/-- `function main(n) { for (var i = f(n); g(i); i = h(i)) { if (n) break; s(i); } }` -/
theorem tree_agrees_of_loop :
    let call (f : String) (as : List Node) : Node := .call (.name f) as
    let unit : Node := .toplevel [.defun "main" ["n"]
      [.forLoop (.var [("i", call "f" [.name "n"])]) (call "g" [.name "i"])
        (.assign "" (.name "i") (call "h" [.name "i"]))
        (.block [.ifElse (.name "n") (.breakTo "") .absent, .stat (call "s" [.name "i"])])]]
    ∃ t, (transform {} (fun _ => false) unit).1 = .ok t ∧
      (∀ i ∈ walkAll t.program, (i.sidesKept && i.unlabelled && i.stepReached) = true) ∧
      recording.means t.tree = recording.runsAll t.program := by
  intro call unit
  obtain ⟨t, ht, hall⟩ : ∃ t, (transform {} (fun _ => false) unit).1 = .ok t ∧
      (walkAll t.program).all (fun i => i.sidesKept && i.unlabelled && i.stepReached) = true :=
    exists_of_okAnd _ (by decide +kernel)
  have hclear := List.all_eq_true.mp hall
  simp only [Bool.and_eq_true] at hclear
  exact ⟨t, ht, List.all_eq_true.mp hall, tree_agrees recording {} (fun _ => false) unit t ht
    (fun i hi => (hclear i hi).1.1) (fun i hi => (hclear i hi).1.2)
    (fun i hi => (hclear i hi).2)⟩

end Execution

end Resumable
