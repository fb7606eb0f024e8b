/-
  Resumable.Proofs.Sorts.Walking — a well-sorted unit is walked without a failure.

  Only a misplaced node ends a walk: one that is no expression where a value is asked for, a unit
  where a statement is, or something that cannot be assigned to.  None of them stands anywhere in
  a well-sorted tree.

  Main statement: `transform_defined`.
-/
import Resumable.Proofs.Sorts.Rendering
import Resumable.Proofs.Walk.Success

namespace Resumable.Program

open Node (Fits WellSorted wellSorted_one wellSorted_two wellSorted_three wellSorted_four
  wellSorted_list wellSorted_fields wellSorted_applied)

namespace Walk

/-! ## §1. Expressions. -/

section

variable {env : Surface}

mutual

theorem expr_defined (n : Node) (h : Fits .operand n) : Succeeds (expr env n) := by
  cases n with
  | name x =>
    rw [expr]
    exact .bind .get fun _ => .pure _
  | num _ | string _ | atom _ | regexp _ _ =>
    rw [expr]
    exact .pure _
  | call c args =>
    obtain ⟨hc, hargs⟩ := (wellSorted_applied rfl).mp h.sorted
    rw [expr]
    refine .inside ?_
    dsimp only
    split
    · next hm =>
      -- a member access that is called is walked as something that could be assigned to
      have hadm : Position.target.admits c = true := by cases c <;> first | rfl | cases hm
      exact .bind (target_defined c ⟨hadm, hc.sorted⟩) fun _ =>
        .bind (operands_defined args hargs) fun _ => emitCall_succeeds _ _ _ _
    · exact .bind (expr_defined c hc) fun _ =>
        .bind (operands_defined args hargs) fun _ => emitCall_succeeds _ _ _ _
  | new c args =>
    obtain ⟨hc, hargs⟩ := (wellSorted_applied rfl).mp h.sorted
    rw [expr]
    exact .bind (expr_defined c hc) fun _ =>
      .bind (operands_defined args hargs) fun _ => settle_succeeds _ _
  | binary op l r =>
    obtain ⟨hl, hr⟩ := (wellSorted_two rfl).mp h.sorted
    rw [expr]
    refine .bind (expr_defined l hl) fun ⟨_, ls⟩ => .bind (expr_defined r hr) fun ⟨_, rs⟩ => ?_
    dsimp only
    split
    · exact .bind (.update _) fun _ => settle_succeeds _ _
    · exact settle_succeeds _ _
  | unary side op e =>
    have he : Fits .operand e := (wellSorted_one rfl).mp h.sorted
    rw [expr]
    dsimp only
    split
    · next hm =>
      have htarget : Fits .target e := ⟨(Bool.and_eq_true_iff.mp hm).2, he.sorted⟩
      exact .bind (target_defined e htarget) fun _ => settle_succeeds _ _
    · exact .bind (expr_defined e he) fun _ => settle_succeeds _ _
  | assign op t v =>
    obtain ⟨ht, hv⟩ := (wellSorted_two rfl).mp h.sorted
    rw [expr]
    refine .bind (target_defined t ht) fun ⟨_, ts⟩ => .bind (expr_defined v hv) fun ⟨_, vs⟩ => ?_
    dsimp only
    split
    · exact .bind (.update _) fun _ => .pure _
    · exact .pure _
  | dot b f =>
    rw [expr]
    exact .bind (expr_defined b ((wellSorted_one rfl).mp h.sorted)) fun _ => settle_succeeds _ _
  | sub b i =>
    obtain ⟨hb, hi⟩ := (wellSorted_two rfl).mp h.sorted
    rw [expr]
    exact .bind (expr_defined b hb) fun _ => .bind (expr_defined i hi) fun _ => settle_succeeds _ _
  | array es =>
    rw [expr]
    exact .bind (operands_defined es ((wellSorted_list rfl).mp h.sorted)) fun _ =>
      settle_succeeds _ _
  | object ps =>
    rw [expr]
    exact .bind (fields_defined ps ((wellSorted_fields rfl).mp h.sorted)) fun _ =>
      settle_succeeds _ _
  | conditional _ _ _ | seq _ | function _ _ _ =>
    rw [expr, map_eq_pure_bind]
    exact .bind (unsplit_succeeds _) fun _ => .pure _
  | _ => cases h.admitted
termination_by structural n

theorem target_defined (n : Node) (h : Fits .target n) : Succeeds (target env n) := by
  cases n with
  | name x =>
    rw [target]
    exact .bind .get fun _ => .pure _
  | dot b f =>
    rw [target]
    exact .bind (expr_defined b ((wellSorted_one rfl).mp h.sorted)) fun _ => .pure _
  | sub b i =>
    obtain ⟨hb, hi⟩ := (wellSorted_two rfl).mp h.sorted
    rw [target]
    exact .bind (expr_defined b hb) fun _ => .bind (expr_defined i hi) fun _ => .pure _
  | _ => cases h.admitted
termination_by structural n

theorem operands_defined (ns : List Node) (h : ∀ n ∈ ns, Fits .operand n) :
    Succeeds (operands env ns) := by
  cases ns with
  | nil =>
    rw [operands]
    exact .pure _
  | cons n ns =>
    obtain ⟨hn, hns⟩ := List.forall_mem_cons.mp h
    rw [operands]
    exact .bind (expr_defined n hn) fun _ => .bind (operands_defined ns hns) fun _ => .pure _
termination_by structural ns

theorem fields_defined (ps : List (String × Node)) (h : ∀ p ∈ ps, Fits .operand p.2) :
    Succeeds (fields env ps) := by
  cases ps with
  | nil =>
    rw [fields]
    exact .pure _
  | cons p ps =>
    obtain ⟨hn, hps⟩ := List.forall_mem_cons.mp h
    obtain ⟨k, n⟩ := p
    rw [fields]
    exact .bind (expr_defined n hn) fun _ => .bind (fields_defined ps hps) fun _ => .pure _
termination_by structural ps

end

/-! ## §2. Statements. -/

/-- A part that may be left out, where it is not. -/
theorem optional_defined {n : Node} (h : Fits .optional n) (hn : n ≠ .absent) :
    Succeeds (expr env n) :=
  expr_defined n (h.of_optional (mt Node.isAbsent_eq_true_iff.mp hn))

theorem statementOr_defined {n : Node} {x : Walk Bool} (h : Fits .statement n)
    (hx : n.isExpression = false → Succeeds x) : Succeeds (statementOr env n x) := by
  unfold statementOr
  split
  · next he => exact statement_succeeds (expr_defined n ⟨he, h.sorted⟩)
  · next he => exact hx (Bool.eq_false_iff.mpr he)

mutual

theorem stmt_defined (n : Node) (h : Fits .statement n) (he : n.isExpression = false) :
    Succeeds (stmt env n) := by
  cases n with
  | stat e =>
    rw [stmt]
    exact statement_succeeds (expr_defined e ((wellSorted_one rfl).mp h.sorted))
  | var ds =>
    have hds : ∀ d ∈ ds, Fits .optional d.2 := (wellSorted_fields rfl).mp h.sorted
    rw [stmt]
    exact bindings_succeeds fun d hd hn => optional_defined (hds d hd) hn
  | block ns | splice ns =>
    rw [stmt]
    exact stmts_defined ns ((wellSorted_list rfl).mp h.sorted)
  | ifElse c yes no =>
    obtain ⟨hc, hyes, hno⟩ := (wellSorted_three rfl).mp h.sorted
    rw [stmt]
    refine branch_succeeds (expr_defined c hc) (fun _ => region_succeeds fun _ => ?_)
      (fun _ => region_succeeds fun hn => ?_)
    · exact statementOr_defined hyes (stmt_defined yes hyes)
    · have hno' := hno.of_optionalStatement (mt Node.isAbsent_eq_true_iff.mp hn)
      exact statementOr_defined hno' (stmt_defined no hno')
  | forLoop init cond step body =>
    obtain ⟨hinit, hcond, hstep, hbody⟩ := (wellSorted_four rfl).mp h.sorted
    rw [stmt]
    refine loop_succeeds (fun _ => region_succeeds fun hn => ?_) (optional_defined hcond)
      (optional_defined hstep) (fun _ => region_succeeds fun _ => ?_)
    · have hinit' := hinit.to_statement (mt Node.isAbsent_eq_true_iff.mp hn)
      exact statementOr_defined hinit' (stmt_defined init hinit')
    · exact statementOr_defined hbody (stmt_defined body hbody)
  | defun name params ns =>
    rw [stmt]
    exact .inside (.bind (.framed (stmts_defined ns ((wellSorted_list rfl).mp h.sorted))) fun _ =>
      .bind (.update _) fun _ => .pure _)
  | breakTo _ | continueTo _ | debugger =>
    rw [stmt]
    exact .bind (.update _) fun _ => .pure _
  | label _ _ | whileLoop _ _ | doLoop _ _ | tryCatch _ _ _ | throw _ | switch _ _ | forIn _ _ _
  | withObject _ _ | ret _ | const _ =>
    rw [stmt]
    exact .bind (unsplit_succeeds _) fun _ => .bind (.update _) fun _ => .pure _
  | absent | toplevel _ => cases h.admitted
  | unary side _ _ => cases side <;> cases he
  | _ => cases he
termination_by structural n

theorem stmts_defined (ns : List Node) (h : ∀ n ∈ ns, Fits .statement n) :
    Succeeds (stmts env ns) := by
  cases ns with
  | nil =>
    rw [stmts]
    exact .pure _
  | cons n ns =>
    obtain ⟨hn, hns⟩ := List.forall_mem_cons.mp h
    rw [stmts]
    exact .bind (statementOr_defined hn (stmt_defined n hn)) fun _ =>
      .bind (stmts_defined ns hns) fun _ => .pure _
termination_by structural ns

end

end

end Walk

/-! ## §3. Whole units. -/

/-- A well-sorted unit is transformed. -/
theorem transform_defined (naming : Naming) (isAsync : String → Bool) {body : List Node}
    (h : WellSorted (.toplevel body)) : Defined (transform naming isAsync (.toplevel body)).1 :=
  transform_of_succeeds (Walk.stmts_defined body ((wellSorted_list rfl).mp h))

end Resumable.Program
