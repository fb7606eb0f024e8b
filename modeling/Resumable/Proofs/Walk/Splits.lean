/-
  Resumable.Proofs.Walk.Splits — what has a call is split, and nothing else.

  The walk of an expression says whether it was split.  It was exactly if a call in it is analysed,
  for a call always leaves instructions behind and nothing else does (`Emits.value_split`).

  The walk of a statement says the same of all that runs when the statement runs: `openCalls` lists
  the calls of its expressions and of the statements in it, without those of function declarations.
  From the parts of a branch or a loop this goes over to the marks on its instruction
  (`SplitWhereCalled`).

  Main statement: `transform_detects_splits`.
-/
import Resumable.Proofs.Walk.Controls
import Resumable.Proofs.Walk.Unsplit

namespace Resumable

namespace Node

/-! ## §1. Calls outside function declarations. -/

mutual

/-- The analysed calls of a statement that are not in a function declaration.  The body of a
    declaration runs when the function is called. -/
def openCalls : Node → List Node
  | stat e => e.analysedCalls
  | var ds => ds.flatMap (fun d => d.2.analysedCalls)
  | block b => openCallsAll b
  | splice ns => openCallsAll ns
  | ifElse c y n => c.analysedCalls ++ openCalls y ++ openCalls n
  | forLoop i c s b => openCalls i ++ c.analysedCalls ++ s.analysedCalls ++ openCalls b
  | defun _ _ _ => []
  | n => n.analysedCalls

/-- The analysed calls of statements that are not in function declarations. -/
def openCallsAll : List Node → List Node
  | [] => []
  | n :: rest => openCalls n ++ openCallsAll rest

end

theorem openCalls_of_isExpression {n : Node} (h : n.isExpression = true) :
    n.openCalls = n.analysedCalls := by
  cases n with
  | stat _ | var _ | block _ | splice _ | ifElse _ _ _ | forLoop _ _ _ _ | defun _ _ _ => cases h
  | _ => rfl

theorem openCalls_of_isPassed {n : Node} (h : Program.Walk.isPassed n = true) :
    n.openCalls = [] := by
  cases n with
  | breakTo _ | continueTo _ | debugger => exact analysedCalls_eq rfl
  | label _ _ | whileLoop _ _ | doLoop _ _ | tryCatch _ _ _ | throw _ | switch _ _ | forIn _ _ _
  | withObject _ _ | ret _ | const _ => exact analysedCalls_of_isWhole rfl
  | _ => cases h

end Node

namespace Program

namespace Walk

open Node (analysedCalls analysedCalls_absent)

section

variable {env : Surface} {job job' : Job} {σ σ' : Scope} {n v : Node} {vs : List Node}
  {split : Bool} {code : List Instr}

/-! ## §2. Splits. -/

/-- The calls that the walk of a job is split at. -/
def Job.openCalls : Job → List Node
  | .expr n | .effect n | .test n | .step n => n.analysedCalls
  | .operands ns => ns.flatMap analysedCalls
  | .stmt n | .region n => n.openCalls
  | .stmts ns => Node.openCallsAll ns
  | .bindings ds => ds.flatMap (fun d => d.2.analysedCalls)

theorem Job.Leads.openCalls (h : job.Leads job') : job.openCalls = job'.openCalls := by
  cases h with
  | expression hn => exact Node.openCalls_of_isExpression hn
  | stat | var | block | splice => simp [Job.openCalls, Node.openCalls]
  | region | step => rfl

theorem Job.Void.openCalls (h : job.Void) : job.openCalls = [] := by
  cases h <;> simp [Job.openCalls, Node.openCalls, analysedCalls_absent]

/-- A walk of values is split exactly if there is a call in them. -/
theorem Emits.value_split (h : Emits env job σ vs split code σ') (hj : job.isValue = true) :
    split = true ↔ job.calls ≠ [] := by
  have hmatch := h.calls_match
  unfold CallsMatch at hmatch
  constructor
  · intro hs hnil
    rw [hnil, List.forall₂_nil_left_iff] at hmatch
    exact h.calls_of_split hs hmatch
  · intro hcalls
    by_contra hs
    -- a walk of values that is not split leaves no instructions
    obtain ⟨-, hcode, -⟩ := h.value_code hj
    rw [hcode (by simpa using hs)] at hmatch
    exact hcalls (List.forall₂_nil_right_iff.mp hmatch)

/-- Two walks one after the other are split if one of them is. -/
theorem split_append {a b : Bool} {xs ys : List Node} (h : a = true ↔ xs ≠ [])
    (h' : b = true ↔ ys ≠ []) : (a || b) = true ↔ xs ++ ys ≠ [] := by
  rw [Bool.or_eq_true, h, h', Ne, Ne, Ne, List.append_eq_nil_iff, not_and_or]

/-- A walk is split exactly if there is a call in what it walks, outside function declarations. -/
theorem Emits.split_iff (h : Emits env job σ vs split code σ') :
    split = true ↔ job.openCalls ≠ [] := by
  induction h with
  | reference x => exact (Emits.reference x : Emits env _ σ _ _ _ _).value_split rfl
  | literal hf => exact (Emits.literal hf : Emits env _ σ _ _ _ _).value_split rfl
  | copied hf => exact (Emits.copied hf : Emits env _ σ _ _ _ _).value_split rfl
  | kept hf ops => exact Emits.value_split (.kept hf ops) rfl
  | captured hf ops => exact Emits.value_split (.captured hf ops) rfl
  | assigned ht ops => exact Emits.value_split (.assigned ht ops) rfl
  | called ops => exact Emits.value_split (.called ops) rfl
  | operandsNil => exact (Emits.operandsNil : Emits env _ σ _ _ _ _).value_split rfl
  | operandsCons head tail => exact Emits.value_split (.operandsCons head tail) rfl
  | effect _ ih | test _ ih => exact ih
  | leads hl _ ih =>
    rw [hl.openCalls]
    exact ih
  | void hv =>
    rw [hv.openCalls]
    simp
  | branch _ _ _ ih ih₁ ih₂ =>
    rw [Job.openCalls, Node.openCalls]
    exact split_append (split_append ih ih₁) ih₂
  | loop _ _ _ _ ih ih₁ ih₂ ih₃ =>
    rw [Job.openCalls, Node.openCalls]
    exact split_append (split_append (split_append ih ih₁) ih₂) ih₃
  | declaration =>
    rw [Job.openCalls, Node.openCalls]
    simp
  | passed hp =>
    rw [Job.openCalls, Node.openCalls_of_isPassed hp]
    simp
  | stmtsNil | bindingsNil => simp [Job.openCalls, Node.openCallsAll]
  | stmtsCons _ _ ih ih' =>
    rw [Job.openCalls, Node.openCallsAll, Bool.or_comm]
    exact split_append ih ih'
  | bare _ ih =>
    rw [Job.openCalls, List.flatMap_cons, analysedCalls_absent, List.nil_append]
    exact ih
  | bound _ _ ih ih' =>
    rw [Job.openCalls, List.flatMap_cons, Bool.or_comm]
    exact split_append ih ih'

/-! ## §3. Branches and loops. -/

/-- The parts of a branch and the condition of a loop count as split exactly if they have calls. -/
inductive SplitWhereCalled : Node → Instr → Prop
  | branch {c v yes no : Node} {yesList noList : List Instr} {hasElse : Bool} {shape : Shape}
      {yesTemp noTemp : Option String} (cond : shape.cond = true ↔ c.analysedCalls ≠ [])
      (ofYes : shape.yes = true ↔ yes.openCalls ≠ [])
      (ofNo : shape.no = true ↔ no.openCalls ≠ []) :
      SplitWhereCalled (.ifElse c yes no)
        (.branch v yesList noList hasElse shape yesTemp noTemp)
  | loop {init c step body v e : Node} {test stepList bodyList : List Instr} {condSplit : Bool}
      (cond : condSplit = true ↔ c.analysedCalls ≠ []) :
      SplitWhereCalled (.forLoop init c step body) (.loop v test stepList bodyList condSplit e)

theorem Translates.splitWhereCalled {i : Instr} (h : Translates env n i) :
    SplitWhereCalled n i := by
  cases h with
  | branch cond yesDone noDone =>
    exact .branch cond.split_iff yesDone.split_iff noDone.split_iff
  | loop testDone => exact .loop testDone.split_iff

end

end Walk

/-! ## §4. Whole units. -/

/-- The walk of an expression is split exactly if there is an analysed call in it, and leaves no
    instruction and no temp if it is not.  The marks on the branches and loops of a program say of
    each part whether it has a call that is not in a function declaration. -/
theorem transform_detects_splits (naming : Naming) (isAsync : String → Bool) (body : List Node)
    (t : Transformed) (h : (transform naming isAsync (.toplevel body)).1 = .ok t) :
    (∀ (env : Surface) (e v : Node) (split : Bool) (s s' : State),
      Walk.expr env e s = (.ok (v, split), s') →
        (split = true ↔ e.analysedCalls ≠ []) ∧
        (split = false → s.frames.Extends s'.frames [] ∧ s'.scope.temps = s.scope.temps ∧
          s'.calls = s.calls ∧ s'.asyncCalls = s.asyncCalls)) ∧
      List.Forall₂ Walk.SplitWhereCalled (Node.controlsAll body) (Instr.controls t.program) := by
  refine ⟨fun env e v split s s' hexpr => ?_, ?_⟩
  · obtain ⟨code, emits, extends_, counted⟩ := Walk.expr_yields hexpr
    have hiff := emits.split_iff
    refine ⟨hiff, fun hs => ?_⟩
    have hcalls : e.analysedCalls = [] := by
      by_contra hne
      exact Bool.false_ne_true (hs.symm.trans (hiff.mpr hne))
    obtain ⟨-, rfl, -, hscope⟩ := emits.copied_of_calls hcalls
    refine ⟨extends_, ?_, counted.calls, counted.asyncCalls⟩
    rw [hscope]
    exact (Walk.declares_copyScope _ _).sameTemps
  · exact (transform_translates h).imp fun _ _ hi => hi.splitWhereCalled

/-- A branch whose condition and first side have calls and whose other side declares a function
    that has one, and a loop with a call in its condition and in its step:
    `if (f(x)) g(x); else { function k() { h(); } } for (; h(x); x = f(x)) y = x;`. -/
theorem transform_detects_splits_of_branch :
    let body : List Node := [.ifElse (.call (.name "f") [.name "x"])
        (.stat (.call (.name "g") [.name "x"]))
        (.block [.defun "k" [] [.stat (.call (.name "h") [])]]),
      .forLoop .absent (.call (.name "h") [.name "x"])
        (.assign "" (.name "x") (.call (.name "f") [.name "x"]))
        (.stat (.assign "" (.name "y") (.name "x")))]
    ∃ t, (transform {} (fun _ => false) (.toplevel body)).1 = .ok t ∧
      (∀ (env : Surface) (e v : Node) (split : Bool) (s s' : State),
        Walk.expr env e s = (.ok (v, split), s') →
          (split = true ↔ e.analysedCalls ≠ []) ∧
          (split = false → s.frames.Extends s'.frames [] ∧ s'.scope.temps = s.scope.temps ∧
            s'.calls = s.calls ∧ s'.asyncCalls = s.asyncCalls)) ∧
        List.Forall₂ Walk.SplitWhereCalled (Node.controlsAll body) (Instr.controls t.program) := by
  intro body
  obtain ⟨t, ht⟩ : ∃ t, (transform {} (fun _ => false) (.toplevel body)).1 = .ok t :=
    exists_of_isOk (by decide +kernel)
  exact ⟨t, ht, transform_detects_splits {} (fun _ => false) body t ht⟩

end Program

end Resumable
