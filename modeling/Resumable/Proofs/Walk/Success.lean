/-
  Resumable.Proofs.Walk.Success — walks that do not fail.

  A walk succeeds if it ends well from every state.  Whatever is put together from walks that
  succeed does, and of the steps only a misplaced node fails, so that a construct is walked without
  a failure if its parts are.
-/
import Resumable.Proofs.Walk.Statement

namespace Resumable.Program

namespace Walk

/-! ## §1. Expressions. -/

/-- A walk that ends well from every state. -/
def Succeeds {α : Type} (x : Walk α) : Prop := ∀ s, ∃ a s', x s = (.ok a, s')

section

variable {α β : Type} {env : Surface} {n : Node}

theorem Succeeds.pure (a : α) : Succeeds (Pure.pure a : Walk α) := fun s => ⟨a, s, rfl⟩

theorem Succeeds.get : Succeeds (MonadState.get : Walk State) := fun s => ⟨s, s, rfl⟩

theorem Succeeds.update (f : State → State) : Succeeds (modify f : Walk Unit) :=
  fun s => ⟨(), f s, rfl⟩

theorem Succeeds.bind {x : Walk α} {f : α → Walk β} (h : Succeeds x) (hf : ∀ a, Succeeds (f a)) :
    Succeeds (x >>= f) := by
  intro s
  obtain ⟨a, s₁, hx⟩ := h s
  obtain ⟨b, s₂, hb⟩ := hf a s₁
  exact ⟨b, s₂, bind_ok.mpr ⟨a, s₁, hx, hb⟩⟩

theorem Succeeds.inside {name : String} {x : Walk α} (h : Succeeds x) :
    Succeeds (Walk.inside name x) := by
  intro s
  obtain ⟨a, s₁, hx⟩ := h { s with trail := s.trail.enter name }
  exact ⟨a, _, inside_ok.mpr ⟨s₁, hx, rfl⟩⟩

theorem Succeeds.framed {x : Walk α} (h : Succeeds x) : Succeeds (Walk.framed x) := by
  intro s
  obtain ⟨a, s₁, hx⟩ := h { s with frames := s.frames.push }
  exact ⟨(a, _), _, framed_ok.mpr ⟨s₁, hx, rfl, rfl⟩⟩

theorem settle_succeeds (v : Node) (split : Bool) : Succeeds (settle v split) := by
  intro s
  cases split <;> exact ⟨_, _, rfl⟩

theorem operands_succeeds {ns : List Node} (h : ∀ n ∈ ns, Succeeds (expr env n)) :
    Succeeds (operands env ns) := by
  induction ns with
  | nil =>
    rw [operands]
    exact .pure _
  | cons n ns ih =>
    rw [operands]
    refine .bind (h n List.mem_cons_self) fun _ => .bind (ih fun m hm => ?_) fun _ => .pure _
    exact h m (List.mem_cons_of_mem _ hm)

theorem emitCall_succeeds (c : Node) (async : Bool) (c' : Node) (args : List Node) :
    Succeeds (emitCall env c async c' args) := by
  intro s
  cases async <;> exact ⟨_, _, rfl⟩

theorem copied_succeeds (n : Node) : Succeeds (copied n) := fun _ => ⟨_, _, rfl⟩

theorem warn_succeeds (n : Node) : Succeeds (warn env n) := by
  unfold warn
  split
  · exact .pure _
  · exact .update _

/-- A construct that is not split is copied, whatever is in it. -/
theorem unsplit_succeeds (n : Node) : Succeeds (unsplit env n) :=
  .bind (warn_succeeds n) fun _ => copied_succeeds n

/-! ## §2. Statements. -/

theorem statement_succeeds {x : Walk (Node × Bool)} (h : Succeeds x) : Succeeds (statement x) := by
  refine .bind h fun r => ?_
  obtain ⟨_, split⟩ := r
  cases split
  · exact .bind (.update _) fun _ => .pure _
  · exact .pure _

/-- A binding with a value that is walked, or without one. -/
theorem binding_succeeds {x : String} {init : Node}
    (h : init ≠ .absent → Succeeds (expr env init)) : Succeeds (binding env x init) := by
  refine .bind (.update _) fun _ => .bind .get fun _ => ?_
  split
  · exact .bind (.update _) fun _ => .pure _
  · next hi =>
    have value := h (mt Node.isAbsent_eq_true_iff.mpr hi)
    refine .bind (.inside ?_) fun ⟨_, _, split⟩ => ?_
    · exact .bind .get fun _ => .bind (.update _) fun _ => .bind value fun _ => .pure _
    · cases split
      · exact .bind (.update _) fun _ => .pure _
      · exact .bind (.update _) fun _ => .bind (.update _) fun _ => .bind (.update _) fun _ =>
          .pure _

theorem bindings_succeeds {ds : List (String × Node)}
    (h : ∀ d ∈ ds, d.2 ≠ .absent → Succeeds (expr env d.2)) : Succeeds (bindings env ds) := by
  induction ds with
  | nil =>
    rw [bindings]
    exact .pure _
  | cons d ds ih =>
    rw [bindings]
    refine .bind (binding_succeeds (h d List.mem_cons_self)) fun _ =>
      .bind (ih fun e he => ?_) fun _ => .pure _
    exact h e (List.mem_cons_of_mem _ he)

/-- A part of a branch or loop that was left out, or is walked. -/
theorem region_succeeds {name : String}
    (h : n ≠ .absent → Succeeds (statementOr env n (stmt env n))) :
    Succeeds (region env name n (stmt env n)) := by
  refine .inside (.framed ?_)
  split
  · exact .pure _
  · next ha =>
    refine h fun hn => ha ?_
    rw [hn]
    rfl

theorem branch_succeeds {c yes no : Node} {x y : Walk Bool} (hc : Succeeds (expr env c))
    (hyes : ∀ name, Succeeds (region env name yes x))
    (hno : ∀ name, Succeeds (region env name no y)) : Succeeds (branch env c yes no x y) := by
  refine .inside (.bind ?_ fun _ => .bind (hyes _) fun _ => .bind ?_ fun _ =>
    .bind (hno _) fun _ => .bind ?_ fun _ => .bind (.update _) fun _ => .bind (.update _) fun _ =>
    .pure _)
  · exact .bind (.framed (.inside hc)) fun _ => .bind (.update _) fun _ => .pure _
  · exact .bind .get fun _ => .pure _
  · exact .bind .get fun _ => .pure _

theorem loop_succeeds {init cond step body : Node} {x y : Walk Bool}
    (hinit : ∀ name, Succeeds (region env name init x))
    (hcond : cond ≠ .absent → Succeeds (expr env cond))
    (hstep : step ≠ .absent → Succeeds (expr env step))
    (hbody : ∀ name, Succeeds (region env name body y)) :
    Succeeds (loop env init cond step body x y) := by
  refine .inside (.bind ?_ fun _ => .bind (.framed ?_) fun _ => .bind (.framed ?_) fun _ =>
    .bind (hbody _) fun _ => .bind (.update _) fun _ => .pure _)
  · unfold loopInit
    split
    · exact .pure _
    · exact .bind (hinit _) fun _ => .bind (.update _) fun _ => .pure _
  · split
    · exact .pure _
    · next ha =>
      have hvalue := hcond (mt Node.isAbsent_eq_true_iff.mpr ha)
      exact .bind (.inside hvalue) fun _ => .bind (.update _) fun _ => .pure _
  · split
    · exact .pure _
    · next ha =>
      have heffect := hstep (mt Node.isAbsent_eq_true_iff.mpr ha)
      refine .bind (.inside heffect) fun r => ?_
      obtain ⟨_, split⟩ := r
      cases split
      · exact .bind (.update _) fun _ => .pure _
      · exact .pure _

/-- Statements of which each is walked without a failure. -/
theorem stmts_succeeds {ns : List Node}
    (h : ∀ n ∈ ns, Succeeds (statementOr env n (stmt env n))) : Succeeds (stmts env ns) := by
  induction ns with
  | nil =>
    rw [stmts]
    exact .pure _
  | cons n ns ih =>
    rw [stmts]
    refine .bind (h n List.mem_cons_self) fun _ => .bind (ih fun m hm => ?_) fun _ => .pure _
    exact h m (List.mem_cons_of_mem _ hm)

end

end Walk

/-! ## §3. Whole units. -/

/-- A unit whose statements can be walked is transformed. -/
theorem transform_of_succeeds {naming : Naming} {isAsync : String → Bool} {body : List Node}
    (h : Walk.Succeeds (Walk.stmts (naming.surface isAsync) body)) :
    ∃ t, (transform naming isAsync (.toplevel body)).1 = .ok t := by
  have hunit : Walk.Succeeds (Walk.inside "toplevel" _) := .inside h
  obtain ⟨b, s, hw⟩ := hunit (State.start naming body)
  obtain ⟨t, ht, -⟩ := finish_walkUnit hw
  refine ⟨t, ?_⟩
  simp only [transform, transformBody, show walkUnit naming isAsync body = (.ok b, s) from hw, ht]

end Resumable.Program
