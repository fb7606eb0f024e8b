/-
  Resumable.Proofs.Marks.Calls — which calls are marked.

  A call may suspend if something that may suspend is mentioned in its callee or in an argument,
  outside of nested calls (`flagged`).  The calls of a tree fall into two parts: those that are
  analysed, and those inside a construct that is taken as a whole.  Of the first, each has an
  instruction, and the mark of the instruction tells whether the call may suspend.

  Main results:
    * `calls_perm`         — every call is analysed, or inside a construct taken as a whole;
    * `transform_marks`    — the calls of a program are marked as the rule says.
-/
import Mathlib.Data.List.Perm.Basic
import Resumable.Proofs.Walk.Calls

namespace Resumable

namespace Node

/-! ## §1. The calls of a tree. -/

/-- The calls in a tree, those that are not analysed included. -/
def calls (n : Node) : List Node := n.everything.filter Program.Walk.isCall

/-- The constructs of a tree that are taken as a whole, each of them outside of the others. -/
def wholes (n : Node) : List Node :=
  if n.isWhole then [n] else n.children.attach.flatMap (fun c => wholes c.1)
termination_by n
decreasing_by exact sizeOf_lt_of_mem_children c.2

theorem wholes_of_isWhole {n : Node} (h : n.isWhole = true) : n.wholes = [n] := by
  rw [wholes, if_pos h]

theorem wholes_eq {n : Node} (h : n.isWhole = false) : n.wholes = n.children.flatMap wholes := by
  rw [wholes, h, if_neg Bool.false_ne_true]
  rw [List.flatMap_subtype (g := wholes) (fun _ _ => rfl), List.unattach_attach]

theorem calls_eq {n : Node} (hn : n.isAbsent = false) :
    n.calls = (if Program.Walk.isCall n then [n] else []) ++ n.children.flatMap calls := by
  unfold calls everything
  rw [inspect_eq _ hn rfl, List.filter_cons, List.filter_flatMap]
  split <;> rfl

/-- The calls of a tree are those that are analysed and those in constructs that are not. -/
theorem calls_perm (n : Node) : n.calls.Perm (n.analysedCalls ++ n.wholes.flatMap calls) := by
  cases hw : n.isWhole with
  | true =>
    rw [analysedCalls_of_isWhole hw, wholes_of_isWhole hw, List.flatMap_singleton]
    exact .refl _
  | false =>
    cases hn : n.isAbsent with
    | true =>
      cases n <;> cases hn
      rw [analysedCalls_absent, wholes_eq rfl]
      exact .refl _
    | false =>
      -- a call comes before its operands here and behind them in post-order
      have below : (n.children.flatMap calls).Perm (n.children.flatMap analysedCalls ++
          n.children.flatMap (fun c => c.wholes.flatMap calls)) :=
        (List.Perm.flatMap_left _ fun c hc => calls_perm c).trans
          (List.flatMap_append_perm _ _ _).symm
      rw [calls_eq hn, analysedCalls_eq hw, wholes_eq hw, List.flatMap_assoc]
      refine (List.Perm.append_left _ below).trans ?_
      rw [← List.append_assoc]
      exact List.Perm.append_right _ List.perm_append_comm
termination_by n
decreasing_by exact sizeOf_lt_of_mem_children hc

end Node

namespace Program

namespace Instr

/-! ## §2. The marks of calls. -/

/-- The marks of the calls that a walk over a list meets. -/
def callMarks (list : List Instr) : List Bool := (calls list).map async

@[simp] theorem callMarks_append (xs ys : List Instr) :
    callMarks (xs ++ ys) = callMarks xs ++ callMarks ys := by
  unfold callMarks
  rw [calls_append, List.map_append]

/-- An instruction that is no call has the marks of those that it holds. -/
theorem callMarks_hold {i : Instr} (h : i.command ≠ "call") :
    callMarks [i] = callMarks i.inner := by
  unfold callMarks
  rw [calls_single h]

theorem callMarks_leaf {command : String} (h : command ≠ "call") (c : Node) (a : Bool) :
    callMarks [.leaf command c a] = [] :=
  callMarks_hold h

end Instr

namespace Walk

open Instr (callMarks callMarks_append callMarks_hold callMarks_leaf)
open Node (analysedCalls_eq analysedCalls_absent)

/-- Whether a call may suspend: whether its callee or an argument mentions something that may. -/
def flagged (isAsync : String → Bool) : Node → Bool
  | .call c args => mentions isAsync c || args.any (mentions isAsync)
  | _ => false

/-- The calls of a derivation are marked as the rule says. -/
theorem Emits.callMarks_eq {env : Surface} {job : Job} {σ σ' : Scope} {vs : List Node}
    {split : Bool} {code : List Instr} (h : Emits env job σ vs split code σ') :
    callMarks code = job.calls.map (flagged env.isAsync) := by
  -- every rule puts code together in the order of its job, and only `called` adds a call
  induction h with
  | reference =>
    rw [Job.calls, analysedCalls_eq rfl]
    rfl
  | literal hf =>
    rw [Job.calls, analysedCalls_of_literal hf]
    rfl
  | copied hf =>
    rw [Job.calls, analysedCalls_of_copied hf]
    rfl
  | void hv =>
    rw [hv.calls]
    rfl
  | operandsNil | stmtsNil | bindingsNil => rfl
  | kept hf _ ih => rw [Job.calls, analysedCalls_parts hf, ih, Job.calls]
  | captured hf _ ih =>
    rw [callMarks_append, Instr.set, Instr.stat, callMarks_leaf (by decide), List.append_nil, ih,
      Job.calls, Job.calls, analysedCalls_parts (.inl hf)]
  | @assigned σ σ' op t v vs code ht _ ih =>
    have hform : form (.assign op t v) = .assigned := if_pos ht
    rw [callMarks_append, Instr.stat, callMarks_leaf (by decide), List.append_nil, ih, Job.calls,
      Job.calls, analysedCalls_parts (.inr hform)]
  | @called σ σ' c args vs split code _ ih =>
    rw [callMarks_append, ih, Job.calls, Job.calls, analysedCalls_call, List.map_append]
    rfl
  | operandsCons _ _ ih ih' | stmtsCons _ _ ih ih' =>
    rw [callMarks_append, ih, ih', ← List.map_append]
    rfl
  | @effect σ σ' n v split code _ ih =>
    rw [callMarks_append, ih]
    cases split <;> exact List.append_nil _
  | leads hl _ ih => rw [ih, hl.calls]
  | test _ ih =>
    rw [callMarks_append, callMarks_leaf (by decide), List.append_nil, ih]
    rfl
  | @branch _ _ _ _ c _ yes no _ _ _ _ _ _ _ _ _ _ _ ih ih₁ ih₂ =>
    have hcalls : (Job.stmt (.ifElse c yes no)).calls = _ := analysedCalls_children rfl rfl rfl
    rw [callMarks_append, callMarks_hold (by simp [Instr.command]), Instr.inner, callMarks_append,
      ih, ih₁, ih₂, hcalls]
    simp [Job.calls]
  | @loop _ _ _ _ _ init cond step body _ _ _ _ _ _ _ _ _ _ _ _ _ _ _ _ ih ih₁ ih₂ ih₃ =>
    have hcalls : (Job.stmt (.forLoop init cond step body)).calls = _ :=
      analysedCalls_children rfl rfl rfl
    rw [callMarks_append, callMarks_hold (by simp [Instr.command]), Instr.inner, callMarks_append,
      callMarks_append, ih, ih₁, ih₂, ih₃, hcalls]
    simp [Job.calls]
  | @declaration _ _ name params ns _ _ _ _ ih =>
    have hcalls : (Job.stmt (.defun name params ns)).calls = _ :=
      analysedCalls_children rfl rfl rfl
    rw [callMarks_hold (by simp [Instr.command]), Instr.inner, ih, hcalls]
    rfl
  | passed hp =>
    rw [callMarks_leaf (isPassed_tag hp), Job.calls, analysedCalls_of_passed hp]
    rfl
  | @bare σ σ' x ds vs split code _ ih =>
    have hset : callMarks [.set (σ.field x) .null] = [] := callMarks_leaf (by decide) _ _
    rw [← List.singleton_append, callMarks_append, hset, ih]
    simp [Job.calls, analysedCalls_absent]
  | @bound σ σ₁ σ₂ x init v ds vs split split' code code' _ _ ih ih' =>
    have hplace : callMarks (placeholder split (σ.field x)) = [] := by
      cases split with
      | false => rfl
      | true => exact callMarks_leaf (by decide) _ _
    have hset : callMarks [.set (σ.field x) v] = [] := callMarks_leaf (by decide) _ _
    rw [← List.singleton_append, callMarks_append, callMarks_append, callMarks_append, hplace,
      hset, ih, ih']
    simp [Job.calls]

end Walk

/-- The calls of a program are the analysed calls of its unit, marked as the rule says. -/
theorem transform_marks {naming : Naming} {isAsync : String → Bool} {unit : Node}
    {t : Transformed} (h : (transform naming isAsync unit).1 = .ok t) :
    (Instr.calls t.program).map Instr.async = unit.analysedCalls.map (Walk.flagged isAsync) := by
  obtain ⟨body, σ, rfl, derived⟩ := transform_emits h
  obtain ⟨vs, split, emits⟩ := derived.emits
  rw [Walk.analysedCalls_children rfl rfl rfl]
  exact emits.callMarks_eq

end Program

end Resumable
