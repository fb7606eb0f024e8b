/-
  Resumable.Proofs.Walk.Controls — the branches and loops of a program are those of the source.

  `controls` lists the branches and loops that a walk takes apart, in program order.  Each becomes
  one instruction, put together from what the walks of its parts gave (`Translates`), and a walk
  over the program meets these instructions in the order of the list (`Emits.controls_translate`).
  So what holds of a branch or a loop of the program can be said of the one it comes from.

  Main statement: `transform_translates`.
-/
import Mathlib.Data.List.Forall2
import Resumable.Proofs.Walk.Nesting
import Resumable.Proofs.Walk.Statement

namespace Resumable

/-! ## §1. Branches and loops. -/

namespace Node

mutual

/-- The branches and loops of a statement that are taken apart, in program order: a loop stands
    behind what its initializer holds.  Nothing is taken apart in a statement that is passed
    through. -/
def controls : Node → List Node
  | n@(ifElse _ y e) => n :: (controls y ++ controls e)
  | n@(forLoop i _ _ b) => controls i ++ n :: controls b
  | block b => controlsAll b
  | splice ns => controlsAll ns
  | defun _ _ b => controlsAll b
  | _ => []

/-- The branches and loops of the statements of a list. -/
def controlsAll : List Node → List Node
  | [] => []
  | n :: rest => controls n ++ controlsAll rest

end

theorem controls_of_isExpression {n : Node} (h : n.isExpression = true) : n.controls = [] := by
  cases n with
  | ifElse _ _ _ | forLoop _ _ _ _ | block _ | splice _ | defun _ _ _ => cases h
  | _ => rfl

theorem controls_of_isPassed {n : Node} (h : Program.Walk.isPassed n = true) :
    n.controls = [] := by
  cases n <;> cases h <;> rfl

end Node

namespace Program

namespace Instr

/-- Whether an instruction is a branch or a loop. -/
def isControl : Instr → Bool
  | branch _ _ _ _ _ _ _ | loop _ _ _ _ _ _ => true
  | _ => false

/-- The branches and loops that a walk over a list meets. -/
def controls (list : List Instr) : List Instr := (walkAll list).filter isControl

theorem controls_append (xs ys : List Instr) :
    controls (xs ++ ys) = controls xs ++ controls ys := by
  unfold controls
  rw [walkAll_append, List.filter_append]

theorem controls_cons (i : Instr) (rest : List Instr) :
    controls (i :: rest) = controls [i] ++ controls rest := controls_append [i] rest

/-- A branch or a loop, and the branches and loops inside it. -/
theorem controls_control {i : Instr} (hi : i.isControl = true) :
    controls [i] = i :: controls i.inner := by
  unfold controls
  rw [walkAll_cons, List.filter_cons_of_pos hi, walkAll, List.append_nil]

/-- Anything else has the branches and loops that it holds. -/
theorem controls_other {i : Instr} (hi : i.isControl = false) :
    controls [i] = controls i.inner := by
  unfold controls
  rw [walkAll_cons, List.filter_cons_of_neg (by simp [hi]), walkAll, List.append_nil]

theorem controls_leaf (command : String) (c : Node) (a : Bool) :
    controls [.leaf command c a] = [] := controls_other rfl

end Instr

namespace Walk

open Instr (controls_append controls_cons controls_control controls_other controls_leaf)

/-! ## §2. Where they come from. -/

/-- An instruction is the translation of a branch or a loop: it holds what the walks of the parts
    gave. -/
inductive Translates (env : Surface) : Node → Instr → Prop
  | branch {σ σ₁ σ₂ σ₃ : Scope} {c v yes no : Node} {ys ns : List Node}
      {condSplit yesSplit noSplit : Bool} {code yesList noList : List Instr}
      (cond : Emits env (.expr c) σ [v] condSplit code σ₁)
      (yesDone : Emits env (.region yes) σ₁ ys yesSplit yesList σ₂)
      (noDone : Emits env (.region no) σ₂ ns noSplit noList σ₃) :
      Translates env (.ifElse c yes no) (.branch v yesList noList (!no.isAbsent)
        ⟨condSplit, yesSplit, noSplit⟩ (regionTemp yesSplit σ₂) (regionTemp noSplit σ₃))
  | loop {σ₁ σ₂ σ₃ σ₄ : Scope} {init cond step body c e : Node} {bs : List Node}
      {condSplit stepSplit bodySplit : Bool} {testList stepList bodyList : List Instr}
      (testDone : Emits env (.test cond) σ₁ [c] condSplit testList σ₂)
      (stepDone : Emits env (.step step) σ₂ [e] stepSplit stepList σ₃)
      (bodyDone : Emits env (.region body) σ₃ bs bodySplit bodyList σ₄) :
      Translates env (.forLoop init cond step body) (.loop c testList stepList bodyList condSplit
        (if stepSplit then .absent else e))

section

variable {env : Surface} {job job' : Job} {σ σ' : Scope} {vs : List Node} {split : Bool}
  {code xs ys : List Instr}

/-- The branches and loops of what is walked. -/
def Job.controls : Job → List Node
  | .stmt n | .region n => n.controls
  | .stmts ns => Node.controlsAll ns
  | _ => []

theorem Job.Leads.controls (h : job.Leads job') : job.controls = job'.controls := by
  cases h with
  | expression hn => exact Node.controls_of_isExpression hn
  | stat | var | block | splice => simp [Job.controls, Node.controls]
  | region | step => rfl

theorem Job.Void.controls (h : job.Void) : job.controls = [] := by
  cases h <;> simp [Job.controls, Node.controls]

/-- The branches and loops of some code are translations of branches and loops of the source. -/
def TranslatesAll (env : Surface) (ns : List Node) (code : List Instr) : Prop :=
  List.Forall₂ (Translates env) ns (Instr.controls code)

theorem TranslatesAll.nil (h : Instr.controls code = []) : TranslatesAll env [] code := by
  unfold TranslatesAll
  rw [h]
  exact .nil

theorem TranslatesAll.append {ns ms : List Node} (h : TranslatesAll env ns xs)
    (h' : TranslatesAll env ms ys) : TranslatesAll env (ns ++ ms) (xs ++ ys) := by
  unfold TranslatesAll
  rw [controls_append]
  exact List.rel_append h h'

/-- One more leaf changes nothing. -/
theorem TranslatesAll.leaf {ns : List Node} (h : TranslatesAll env ns xs) (command : String)
    (c : Node) (a : Bool) : TranslatesAll env ns (xs ++ [.leaf command c a]) := by
  unfold TranslatesAll
  rw [controls_append, controls_leaf, List.append_nil]
  exact h

/-- Nor does one in front. -/
theorem TranslatesAll.behind {ns : List Node} (h : TranslatesAll env ns xs) (command : String)
    (c : Node) (a : Bool) : TranslatesAll env ns (.leaf command c a :: xs) := by
  unfold TranslatesAll
  rw [controls_cons, controls_leaf, List.nil_append]
  exact h

/-- A branch or a loop around others. -/
theorem TranslatesAll.control {n : Node} {ns : List Node} {i : Instr} (hi : i.isControl = true)
    (h : Translates env n i) (inner : TranslatesAll env ns i.inner) :
    TranslatesAll env (n :: ns) [i] := by
  unfold TranslatesAll
  rw [controls_control hi]
  exact .cons h inner

/-- Anything else around branches and loops. -/
theorem TranslatesAll.other {ns : List Node} {i : Instr} (hi : i.isControl = false)
    (inner : TranslatesAll env ns i.inner) : TranslatesAll env ns [i] := by
  unfold TranslatesAll
  rw [controls_other hi]
  exact inner

/-- The branches and loops of the code of a walk are those of its source, in order. -/
theorem Emits.controls_translate (h : Emits env job σ vs split code σ') :
    TranslatesAll env job.controls code := by
  induction h with
  | reference | literal | copied | operandsNil | stmtsNil | bindingsNil => exact .nil rfl
  | void hv =>
    rw [hv.controls]
    exact .nil rfl
  | kept _ _ ih => exact ih
  | captured _ _ ih | assigned _ _ ih | test _ ih => exact ih.leaf _ _ _
  | called _ ih => exact ih.append (.nil rfl)
  | operandsCons _ _ ih ih' => exact ih.append ih'
  | @effect _ _ _ _ split _ _ ih =>
    cases split with
    | true => exact ih.append (.nil rfl)
    | false => exact ih.leaf _ _ _
  | leads hl _ ih =>
    rw [hl.controls]
    exact ih
  | branch cond yesDone noDone ih ih₁ ih₂ =>
    rw [Job.controls, Node.controls]
    exact ih.append (.control rfl (.branch cond yesDone noDone) (ih₁.append ih₂))
  | loop _ testDone stepDone bodyDone ih ih₁ ih₂ ih₃ =>
    rw [Job.controls, Node.controls]
    -- a test and a step have no branches and loops, so those inside are the ones of the body
    exact ih.append
      (.control rfl (.loop testDone stepDone bodyDone) ((ih₁.append ih₂).append ih₃))
  | declaration _ ih =>
    rw [Job.controls, Node.controls]
    exact .other rfl ih
  | passed hp =>
    rw [Job.controls, Node.controls_of_isPassed hp]
    exact .nil rfl
  | stmtsCons _ _ ih ih' =>
    rw [Job.controls, Node.controlsAll]
    exact ih.append ih'
  | bare _ ih => exact ih.behind _ _ _
  | @bound σ _ _ x _ _ _ _ split _ _ _ _ _ ih ih' =>
    have hfront : TranslatesAll env [] (placeholder split (σ.field x)) := by
      cases split <;> exact .nil rfl
    exact (hfront.append ih).append (ih'.behind _ _ _)

end

end Walk

/-! ## §3. Whole units. -/

/-- The branches and loops of a program are translations of those of its unit, in order. -/
theorem transform_translates {naming : Naming} {isAsync : String → Bool} {body : List Node}
    {t : Transformed} (h : (transform naming isAsync (.toplevel body)).1 = .ok t) :
    List.Forall₂ (Walk.Translates (naming.surface isAsync)) (Node.controlsAll body)
      (Instr.controls t.program) := by
  obtain ⟨body', σ, heq, hd⟩ := transform_emits h
  cases heq
  obtain ⟨vs, split, he⟩ := hd.emits
  exact he.controls_translate

end Program

end Resumable
