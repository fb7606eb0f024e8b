/-
  Resumable.Proofs.Walk.Expression — the walk of an expression has a derivation.

  `Yields` says of a walk that the frame in use has grown by exactly the instructions of a
  derivation, and the counters by its calls.  There is one lemma for each step that makes
  instructions, and the main statement `expr_yields` follows the mutual recursion of the walk.
-/
import Resumable.Proofs.Walk.Emission
import Resumable.Proofs.Walk.Nesting

namespace Resumable.Program.Walk

open Instr (callCount asyncCount callCount_append asyncCount_append callCount_single
  asyncCount_single)

/-! ## §1. Counting calls. -/

/-- The counters of the second state are those of the first plus the calls of a list. -/
structure Counted (s s' : State) (code : List Instr) : Prop where
  calls : s'.calls = s.calls + callCount code
  asyncCalls : s'.asyncCalls = s.asyncCalls + asyncCount code

namespace Counted

variable {s s₁ s₂ : State} {xs ys : List Instr}

theorem refl (s : State) : Counted s s [] := ⟨rfl, rfl⟩

theorem trans (h : Counted s s₁ xs) (h' : Counted s₁ s₂ ys) : Counted s s₂ (xs ++ ys) := by
  constructor
  · rw [h'.calls, h.calls, callCount_append]
    omega
  · rw [h'.asyncCalls, h.asyncCalls, asyncCount_append]
    omega

/-- Only the calls of a list matter. -/
theorem congr (h : Counted s s₁ xs) (hc : callCount ys = callCount xs)
    (ha : asyncCount ys = asyncCount xs) : Counted s s₁ ys := by
  constructor
  · rw [hc]
    exact h.calls
  · rw [ha]
    exact h.asyncCalls

/-- An instruction that is no call counts as what it holds. -/
theorem wrap {i : Instr} (h : Counted s s₁ (xs ++ i.inner)) (hi : i.command ≠ "call") :
    Counted s s₁ (xs ++ [i]) := by
  refine h.congr ?_ ?_
  · rw [callCount_append, callCount_append, callCount_single hi]
  · rw [asyncCount_append, asyncCount_append, asyncCount_single hi]

end Counted

/-! ## §2. Steps. -/

/-- The second state differs from the first in its trail and its remarks only. -/
structure Quiet (s s' : State) : Prop where
  scope : s'.scope = s.scope
  frames : s'.frames = s.frames
  calls : s'.calls = s.calls
  asyncCalls : s'.asyncCalls = s.asyncCalls

/-- A walk of a job that ends well, with its instructions collected in the frame in use. -/
def Yields (env : Surface) (job : Job) (s : State) (vs : List Node) (split : Bool) (s' : State) :
    Prop :=
  ∃ code, Emits env job s.scope vs split code s'.scope ∧ Frames.Extends s.frames s'.frames code ∧
    Counted s s' code

section

variable {env : Surface} {job job' : Job} {s s' s₁ s₂ : State} {n m v : Node}
  {ns ms vs ws : List Node} {split split' : Bool} {code : List Instr}

theorem remark_quiet {r : State → Remark} {u : Unit} (h : remark r s = (.ok u, s')) :
    Quiet s s' := by
  cases h
  exact ⟨rfl, rfl, rfl, rfl⟩

theorem warn_quiet {u : Unit} (h : warn env n s = (.ok u, s')) : Quiet s s' := by
  unfold warn at h
  cases hf : flaggedCall? env.isAsync n with
  | none =>
    rw [hf] at h
    cases h
    exact ⟨rfl, rfl, rfl, rfl⟩
  | some callee =>
    rw [hf] at h
    exact remark_quiet h

theorem Yields.quiet (h : Yields env job s vs split s₁) (q : Quiet s₁ s') :
    Yields env job s vs split s' := by
  obtain ⟨code, he, hx, hc⟩ := h
  refine ⟨code, ?_, ?_, ?_, ?_⟩
  · rw [q.scope]
    exact he
  · rw [q.frames]
    exact hx
  · rw [q.calls]
    exact hc.calls
  · rw [q.asyncCalls]
    exact hc.asyncCalls

theorem Yields.after (q : Quiet s s₁) (h : Yields env job s₁ vs split s') :
    Yields env job s vs split s' := by
  obtain ⟨code, he, hx, hc⟩ := h
  rw [q.scope] at he
  rw [q.frames] at hx
  exact ⟨code, he, hx, by rw [hc.calls, q.calls], by rw [hc.asyncCalls, q.asyncCalls]⟩

theorem inside_quiet {α : Type} {name : String} {body : Walk α} {a : α}
    (h : inside name body s = (.ok a, s')) :
    ∃ s₁ s₂, Quiet s s₁ ∧ body s₁ = (.ok a, s₂) ∧ Quiet s₂ s' := by
  obtain ⟨s₂, hb, rfl⟩ := inside_ok.mp h
  exact ⟨{ s with trail := s.trail.enter name }, s₂, ⟨rfl, rfl, rfl, rfl⟩, hb, rfl, rfl, rfl, rfl⟩

theorem Yields.leads (hl : job.Leads job') (h : Yields env job' s vs split s') :
    Yields env job s vs split s' := by
  obtain ⟨code, he, hx, hc⟩ := h
  exact ⟨code, .leads hl he, hx, hc⟩

/-- A job without instructions. -/
theorem Yields.silent (he : Emits env job s.scope vs split [] s'.scope)
    (hf : s'.frames = s.frames) (hc : s'.calls = s.calls) (ha : s'.asyncCalls = s.asyncCalls) :
    Yields env job s vs split s' :=
  ⟨[], he, by rw [hf]; exact .refl _, hc, ha⟩

theorem Yields.operandsNil (s : State) : Yields env (.operands []) s [] false s :=
  .silent .operandsNil rfl rfl rfl

theorem Yields.operandsCons (h : Yields env (.expr n) s [v] split s₁)
    (h' : Yields env (.operands ns) s₁ vs split' s₂) :
    Yields env (.operands (n :: ns)) s (v :: vs) (split || split') s₂ := by
  obtain ⟨code, he, hx, hc⟩ := h
  obtain ⟨code', he', hx', hc'⟩ := h'
  exact ⟨code ++ code', .operandsCons he he', hx.trans hx', hc.trans hc'⟩

theorem Yields.operandsOne (h : Yields env (.expr n) s [v] split s') :
    Yields env (.operands [n]) s [v] split s' := by
  have hcons := h.operandsCons (.operandsNil s')
  rw [Bool.or_false] at hcons
  exact hcons

theorem Yields.operandsAppend (h : Yields env (.operands ns) s vs split s₁)
    (h' : Yields env (.operands ms) s₁ ws split' s₂) :
    Yields env (.operands (ns ++ ms)) s (vs ++ ws) (split || split') s₂ := by
  obtain ⟨code, he, hx, hc⟩ := h
  obtain ⟨code', he', hx', hc'⟩ := h'
  exact ⟨code ++ code', he.operandsAppend he', hx.trans hx', hc.trans hc'⟩

theorem Yields.operands_length (h : Yields env (.operands ns) s vs split s') :
    vs.length = ns.length := by
  obtain ⟨code, he, -, -⟩ := h
  exact he.operands_length

/-- The value of an expression whose operands were walked. -/
theorem Yields.settled {b : Bool} (hf : form n = .combined)
    (ops : Yields env (.operands (parts n)) s vs split s₁)
    (h : settle (assemble s.scope n vs) split s₁ = (.ok (v, b), s')) :
    Yields env (.expr n) s [v] b s' := by
  obtain ⟨code, he, hx, hc⟩ := ops
  cases split with
  | false =>
    cases h
    exact ⟨code, .kept (.inl hf) he, hx, hc⟩
  | true =>
    cases h
    exact ⟨_, .captured hf he, hx.trans (.defer _ _), hc.trans ⟨rfl, rfl⟩⟩

theorem emitCall_ok {source callee : Node} {async b : Bool} {args : List Node}
    (h : emitCall env source async callee args s = (.ok (v, b), s')) :
    v = .name s.scope.nextTemp.1 ∧ b = true ∧ s'.scope = s.scope.nextTemp.2 ∧
      s'.frames = (s.frames.emit (.leaf "call" (.stat (.call callee args)) async)).defer
        (captureInstr env s.scope.nextTemp.1) ∧
      s'.calls = s.calls + 1 ∧ s'.asyncCalls = s.asyncCalls + async.toNat := by
  cases async <;> cases h <;> exact ⟨rfl, rfl, rfl, rfl, rfl, rfl⟩

theorem counted_call {σ : Scope} {c : Node} {args : List Node} {temp : String}
    (hc : s'.calls = s.calls + 1) (ha : s'.asyncCalls = s.asyncCalls + (marked env c args).toNat) :
    Counted s s' [callInstr env σ c args vs, captureInstr env temp] := by
  refine ⟨hc, ?_⟩
  rw [ha]
  unfold callInstr asyncCount
  cases marked env c args <;> rfl

theorem Yields.called {c : Node} {args : List Node} {b : Bool}
    (ops : Yields env (.operands (parts (.call c args))) s vs split s₁)
    (h : emitCall env c (marked env c args) (calleeFrom s.scope c vs)
      (vs.drop (calleeParts c).length) s₁ = (.ok (v, b), s')) :
    Yields env (.expr (.call c args)) s [v] b s' := by
  obtain ⟨code, he, hx, hc⟩ := ops
  obtain ⟨rfl, rfl, hscope, hframes, hcalls, hasync⟩ := emitCall_ok h
  refine ⟨code ++ [callInstr env s.scope c args vs, captureInstr env s₁.scope.nextTemp.1], ?_, ?_,
    hc.trans (counted_call hcalls hasync)⟩
  · rw [hscope]
    exact .called he
  · rw [hframes]
    exact hx.trans ((Frames.Extends.emit _ _).trans (.defer _ _))

theorem Yields.assigned {op : String} {t : Node} {b : Bool} (ht : isTarget t = true)
    (ops : Yields env (.operands (parts (.assign op t m))) s vs split s₁)
    (h : (if split then do
            defer (.stat (assemble s.scope (.assign op t m) vs))
            return (placeFrom s.scope t vs, true)
          else return (assemble s.scope (.assign op t m) vs, false) : Walk (Node × Bool)) s₁ =
        (.ok (v, b), s')) :
    Yields env (.expr (.assign op t m)) s [v] b s' := by
  obtain ⟨code, he, hx, hc⟩ := ops
  cases split with
  | false =>
    cases h
    exact ⟨code, .kept (.inr (if_pos ht)) he, hx, hc⟩
  | true =>
    cases h
    exact ⟨_, .assigned ht he, hx.trans (.defer _ _), hc.trans ⟨rfl, rfl⟩⟩

theorem copied_ok {m : Node} (h : copied n s = (.ok m, s')) :
    m = copy s.scope n ∧ s' = { s with scope := copyScope s.scope n } := by
  cases h
  exact ⟨rfl, rfl⟩

theorem unsplit_ok {m : Node} (h : unsplit env n s = (.ok m, s')) :
    m = copy s.scope n ∧ Quiet { s with scope := copyScope s.scope n } s' := by
  unfold unsplit at h
  obtain ⟨u, s₁, hw, h⟩ := bind_ok.mp h
  have q := warn_quiet hw
  obtain ⟨rfl, rfl⟩ := copied_ok h
  rw [q.scope]
  exact ⟨rfl, rfl, q.frames, q.calls, q.asyncCalls⟩

theorem Yields.copied (hf : form n = .copied) {b : Bool}
    (h : ((fun n' => (n', false)) <$> unsplit env n : Walk (Node × Bool)) s = (.ok (v, b), s')) :
    Yields env (.expr n) s [v] b s' := by
  obtain ⟨m, hu, hm⟩ := map_ok.mp h
  cases hm
  obtain ⟨rfl, q⟩ := unsplit_ok hu
  refine .silent ?_ q.frames q.calls q.asyncCalls
  rw [q.scope]
  exact .copied hf

/-! ## §3. Expressions. -/

/-- Something that is assigned to or called, with what comes behind it. -/
theorem placeFrom_append {σ : Scope} (h : vs.length = (placeParts n).length) :
    placeFrom σ n (vs ++ ws) = placeFrom σ n vs := by
  cases n with
  | dot base field =>
    obtain ⟨b, rfl⟩ := List.length_eq_one_iff.mp h
    rfl
  | sub base index =>
    obtain ⟨b, vs', rfl⟩ := List.exists_cons_of_length_eq_add_one h
    obtain ⟨i, rfl⟩ := List.length_eq_one_iff.mp (Nat.succ.inj h)
    rfl
  | _ => rfl

theorem assemble_assign {σ : Scope} {op : String} {t : Node}
    (h : vs.length = (placeParts t).length) :
    assemble σ (.assign op t m) (vs ++ [v]) = .assign op (placeFrom σ t vs) v := by
  rw [assemble, placeFrom_append h, ← h, List.drop_left]
  rfl

mutual

theorem expr_yields {n : Node} {s s' : State} {v : Node} {b : Bool}
    (h : expr env n s = (.ok (v, b), s')) : Yields env (.expr n) s [v] b s' := by
  cases n with
  | name x =>
    rw [expr] at h
    cases h
    exact .silent (.reference x) rfl rfl rfl
  | num _ | string _ | atom _ | regexp _ _ =>
    rw [expr] at h
    cases h
    exact .silent (.literal rfl) rfl rfl rfl
  | call c args =>
    rw [expr] at h
    obtain ⟨s₁, hin, rfl⟩ := inside_ok.mp h
    clear h
    have hin' : Quiet s { s with trail := s.trail.enter "call" } := ⟨rfl, rfl, rfl, rfl⟩
    have hq : Quiet s₁ { s₁ with trail := s₁.trail.leave } := ⟨rfl, rfl, rfl, rfl⟩
    -- a member is walked as a target, so that its base is evaluated but the member is not
    split at hin
    · next hm =>
      simp only [bind_ok, Prod.exists] at hin
      obtain ⟨c', cs, s₂, hc, args', as, s₃, ha, hcall⟩ := hin
      obtain ⟨-, vs, hvs, rfl⟩ := target_yields hc
      have hlen : vs.length = (calleeParts c).length := by
        rw [calleeParts, if_pos hm]
        exact hvs.operands_length
      have ops : Yields env (.operands (parts (.call c args))) s (vs ++ args') (cs || as) s₃ := by
        rw [parts, calleeParts, if_pos hm]
        exact (hvs.operandsAppend (operands_yields ha)).after hin'
      refine (ops.called ?_).quiet hq
      rw [calleeFrom, if_pos hm, placeFrom_append hvs.operands_length, ← hlen, List.drop_left]
      exact hcall
    · next hm =>
      simp only [bind_ok, Prod.exists] at hin
      obtain ⟨c', cs, s₂, hc, args', as, s₃, ha, hcall⟩ := hin
      have ops : Yields env (.operands (parts (.call c args))) s (c' :: args') (cs || as) s₃ := by
        rw [parts, calleeParts, if_neg hm]
        exact ((expr_yields hc).operandsCons (operands_yields ha)).after hin'
      refine (ops.called ?_).quiet hq
      rw [calleeFrom, calleeParts, if_neg hm, if_neg hm]
      exact hcall
  | new c args =>
    rw [expr] at h
    simp only [bind_ok, Prod.exists] at h
    obtain ⟨c', cs, s₁, hc, args', as, s₂, ha, h⟩ := h
    exact .settled rfl ((expr_yields hc).operandsCons (operands_yields ha)) h
  | binary op l r =>
    rw [expr] at h
    simp only [bind_ok, Prod.exists] at h
    obtain ⟨l', ls, s₁, hl, r', rs, s₂, hr, h⟩ := h
    have ops := (expr_yields hl).operandsCons (expr_yields hr).operandsOne
    -- an operator that should have skipped its right side is only remarked upon
    split at h
    · obtain ⟨u, s₃, hq, h⟩ := bind_ok.mp h
      exact .settled rfl (ops.quiet (remark_quiet hq)) h
    · exact .settled rfl ops h
  | unary side op e =>
    rw [expr] at h
    have hf : form (.unary side op e) = .combined := rfl
    -- an operator that changes its operand takes a target
    split at h
    · next hm =>
      simp only [bind_ok, Prod.exists] at h
      obtain ⟨e', es, s₁, he, h⟩ := h
      obtain ⟨-, vs, hvs, rfl⟩ := target_yields he
      have ops : Yields env (.operands (parts (.unary side op e))) s vs es s₁ := by
        rw [parts, operandParts, if_pos hm]
        exact hvs
      refine .settled hf ops ?_
      rw [assemble, operandFrom, if_pos hm]
      exact h
    · next hm =>
      simp only [bind_ok, Prod.exists] at h
      obtain ⟨e', es, s₁, he, h⟩ := h
      have ops : Yields env (.operands (parts (.unary side op e))) s [e'] es s₁ := by
        rw [parts, operandParts, if_neg hm]
        exact (expr_yields he).operandsOne
      refine .settled hf ops ?_
      rw [assemble, operandFrom, if_neg hm]
      exact h
  | assign op t m =>
    rw [expr] at h
    simp only [bind_ok, Prod.exists] at h
    obtain ⟨t', ts, s₁, ht, m', ms, s₂, hm, h⟩ := h
    obtain ⟨htarget, vs, hvs, rfl⟩ := target_yields ht
    refine .assigned htarget (hvs.operandsAppend (expr_yields hm).operandsOne) ?_
    rw [assemble_assign hvs.operands_length, placeFrom_append hvs.operands_length]
    exact h
  | dot m f =>
    rw [expr] at h
    simp only [bind_ok, Prod.exists] at h
    obtain ⟨m', ms, s₁, hm, h⟩ := h
    exact .settled rfl (expr_yields hm).operandsOne h
  | sub m i =>
    rw [expr] at h
    simp only [bind_ok, Prod.exists] at h
    obtain ⟨m', ms, s₁, hm, i', is, s₂, hi, h⟩ := h
    exact .settled rfl ((expr_yields hm).operandsCons (expr_yields hi).operandsOne) h
  | array es =>
    rw [expr] at h
    simp only [bind_ok, Prod.exists] at h
    obtain ⟨es', bs, s₁, hes, h⟩ := h
    exact .settled rfl (operands_yields hes) h
  | object ps =>
    rw [expr] at h
    simp only [bind_ok, Prod.exists] at h
    obtain ⟨ps', bs, s₁, hps, h⟩ := h
    obtain ⟨vs, ops, rfl⟩ := fields_yields hps
    exact .settled rfl ops h
  | conditional _ _ _ | seq _ | function _ _ _ =>
    rw [expr] at h
    exact .copied rfl h
  | _ =>
    simp only [expr] at h
    exact absurd h misplaced_ne_ok
termination_by structural n

theorem target_yields {n : Node} {s s' : State} {v : Node} {b : Bool}
    (h : target env n s = (.ok (v, b), s')) :
    isTarget n = true ∧
      ∃ vs, Yields env (.operands (placeParts n)) s vs b s' ∧ placeFrom s.scope n vs = v := by
  cases n with
  | name x =>
    rw [target] at h
    cases h
    exact ⟨rfl, [], .operandsNil _, rfl⟩
  | dot m f =>
    rw [target] at h
    simp only [bind_ok, Prod.exists] at h
    obtain ⟨m', ms, s₁, hm, h⟩ := h
    cases h
    exact ⟨rfl, [m'], (expr_yields hm).operandsOne, rfl⟩
  | sub m i =>
    rw [target] at h
    simp only [bind_ok, Prod.exists] at h
    obtain ⟨m', ms, s₁, hm, i', is, s₂, hi, h⟩ := h
    cases h
    exact ⟨rfl, [m', i'], (expr_yields hm).operandsCons (expr_yields hi).operandsOne, rfl⟩
  | _ =>
    simp only [target] at h
    cases h
termination_by structural n

theorem operands_yields {ns : List Node} {s s' : State} {vs : List Node} {b : Bool}
    (h : operands env ns s = (.ok (vs, b), s')) : Yields env (.operands ns) s vs b s' := by
  cases ns with
  | nil =>
    rw [operands] at h
    cases h
    exact .operandsNil _
  | cons n ns =>
    rw [operands] at h
    simp only [bind_ok, Prod.exists] at h
    obtain ⟨v, bs, s₁, hn, ws, cs, s₂, hns, h⟩ := h
    cases h
    exact (expr_yields hn).operandsCons (operands_yields hns)
termination_by structural ns

theorem fields_yields {ps : List (String × Node)} {s s' : State} {qs : List (String × Node)}
    {b : Bool} (h : fields env ps s = (.ok (qs, b), s')) :
    ∃ vs, Yields env (.operands (ps.map (·.2))) s vs b s' ∧ (ps.map (·.1)).zip vs = qs := by
  cases ps with
  | nil =>
    rw [fields] at h
    cases h
    exact ⟨[], .operandsNil _, rfl⟩
  | cons p ps =>
    obtain ⟨k, n⟩ := p
    rw [fields] at h
    simp only [bind_ok, Prod.exists] at h
    obtain ⟨v, bs, s₁, hn, ws, cs, s₂, hps, h⟩ := h
    cases h
    obtain ⟨vs, ops, rfl⟩ := fields_yields hps
    exact ⟨v :: vs, (expr_yields hn).operandsCons ops, rfl⟩
termination_by structural ps

end

end

end Resumable.Program.Walk
