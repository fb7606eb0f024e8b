/-
  Resumable.Proofs.Walk.Order — calls and changes happen in the order of the source.

  The invariant of a derivation is `Job.Performed`: the events of what is walked are performed by
  the code and by the values.  The values of operands are read behind the code of all of them, so
  the events of an operand that was not split come late; only `InOrder` excludes that a call
  overtakes them.  Since each instruction has at most one call (`Lone`), what is performed in order
  is performed call by call (`OrderKept`).

  Main statements: `transform_keeps_order`, and `transform_loses_order` for an expression that is
  not orderly.
-/
import Resumable.Proofs.Execution.Agreement
import Resumable.Proofs.Walk.Dotted
import Resumable.Proofs.Walk.Events
import Resumable.Proofs.Walk.Layout

namespace Resumable

namespace Program

namespace Walk

open Node (events eventsAll_eq hasCall own InOrder)
open Instr (Lone)

/-! ## §1. The events of a derivation. -/

/-- The expressions whose values a job gives. -/
def Job.values : Job → List Node
  | .expr n => [n]
  | .operands ns => ns
  | _ => []

/-- The events performed between two scopes. -/
def Kept (σ σ' : Scope) (source done : List Node) : Prop :=
  Performs σ.container σ.names σ'.names source done

section

variable {env : Surface} {job : Job} {σ σ' σ₁ σ₂ : Scope} {n : Node} {ns vs : List Node}
  {split : Bool} {code : List Instr} {s s' t t' : List Node}

theorem Kept.nil (σ σ' : Scope) : Kept σ σ' [] [] := Performs.nil

theorem Kept.append (h : Kept σ σ₁ s t) (h' : Kept σ₁ σ₂ s' t') (hσ : σ.Grows σ₁)
    (hσ' : σ₁.Grows σ₂) : Kept σ σ₂ (s ++ s') (t ++ t') := by
  unfold Kept at *
  rw [hσ.container] at h'
  exact (h.widen (List.Subset.refl _) hσ'.names.subset).append
    (h'.widen hσ.names.subset (List.Subset.refl _))

/-- Whether a list of expressions has a call, read off its events. -/
theorem any_hasCall (ns : List Node) : ns.any hasCall = (ns.flatMap events).any isCall := by
  induction ns with
  | nil => rfl
  | cons n ns ih => rw [List.any_cons, ih, List.flatMap_cons, List.any_append, hasCall]

theorem hasCall_assign (op : String) (t v : Node) :
    (Node.assign op t v).hasCall = (t.hasCall || v.hasCall) := by
  simp [hasCall, events, isCall]

theorem own_still (h : form n = .combined ∨ form n = .assigned) : (own n).any isCall = false := by
  cases n with
  | unary side op e =>
    simp only [own]
    split <;> simp [isCall]
  | assign op t v => simp [own, isCall]
  | new c args | dot b f | array es | object ps | binary op l r | sub b i => simp [own]
  | _ => rcases h with h | h <;> cases h

theorem own_assemble_still (h : form n = .combined ∨ form n = .assigned) :
    (own (assemble σ n vs)).any isCall = false := by
  cases n with
  | unary side op e =>
    simp only [own, assemble]
    split <;> simp [isCall]
  | assign op t v => simp [own, assemble, isCall]
  | array es | object ps => simp [own, assemble]
  | new c args | dot b f => rcases vs with _ | ⟨v, vs⟩ <;> simp [own, assemble]
  | binary op l r | sub b i => rcases vs with _ | ⟨v, _ | ⟨w, vs⟩⟩ <;> simp [own, assemble]
  | _ => rcases h with h | h <;> cases h

/-- An expression that is no call has a call if an operand has one. -/
theorem hasCall_parts (h : form n = .combined ∨ form n = .assigned) :
    n.hasCall = (parts n).any hasCall := by
  have hform : form n = .combined ∨ form n = .assigned ∨ form n = .called :=
    h.elim .inl (.inr ∘ .inl)
  rw [hasCall, events_parts hform, List.any_append, own_still h,
    Bool.or_false, any_hasCall]

theorem hasCall_assemble (h : form n = .combined ∨ form n = .assigned)
    (hlen : vs.length = (parts n).length) (hvs : ∀ v ∈ vs, v.hasCall = false) :
    (assemble σ n vs).hasCall = false := by
  have hform : form n = .combined ∨ form n = .assigned ∨ form n = .called :=
    h.elim .inl (.inr ∘ .inl)
  rw [hasCall, events_assemble hform hlen, List.any_append, own_assemble_still h, Bool.or_false,
    ← any_hasCall]
  simpa using hvs

theorem hasCall_placeFrom {t : Node} (ht : isTarget t = true)
    (hlen : (placeParts t).length ≤ vs.length) (hvs : ∀ v ∈ vs, v.hasCall = false) :
    (placeFrom σ t vs).hasCall = false := by
  rw [hasCall, events_placeFrom ht hlen, ← any_hasCall]
  simpa using fun v hv => hvs v (List.mem_of_mem_take hv)

theorem lone_call {c : Node} {args : List Node}
    (hlen : vs.length = (parts (.call c args)).length) (hvs : ∀ v ∈ vs, v.hasCall = false) :
    Lone (callInstr env σ c args vs) := by
  rw [parts, List.length_append] at hlen
  refine .call _ (List.forall_mem_cons.mpr ⟨?_, fun v hv => hvs v (List.mem_of_mem_drop hv)⟩)
  rw [hasCall, events_calleeFrom (by omega), ← any_hasCall]
  simpa using fun v hv => hvs v (List.mem_of_mem_take hv)

/-- A walk of values splits what has a call.  It takes every call out of the values, and gives each
    an instruction of its own. -/
theorem Emits.lone (henv : env.returnValue.hasCall = false)
    (h : Emits env job σ vs split code σ') :
    job.isValue = true → split = job.values.any hasCall ∧ (∀ v ∈ vs, v.hasCall = false) ∧
      ∀ i ∈ code, Lone i := by
  induction h with
  | reference x =>
    intro _
    simp [Job.values, hasCall, events, events_resolve]
  | literal hf =>
    intro _
    simp [Job.values, hasCall, events_of_literal hf]
  | @copied σ n hf =>
    intro _
    obtain ⟨hn, hcopy⟩ := events_of_copied (σ := σ) hf
    simp [Job.values, hasCall, hn, hcopy]
  | kept hf ops ih =>
    intro _
    obtain ⟨hsplit, hvs, hcode⟩ := ih rfl
    refine ⟨?_, ?_, hcode⟩
    · rw [Job.values, List.any_cons, List.any_nil, Bool.or_false, hasCall_parts hf]
      exact hsplit
    · exact List.forall_mem_singleton.mpr (hasCall_assemble hf ops.operands_length hvs)
  | captured hf ops ih =>
    intro _
    obtain ⟨hsplit, hvs, hcode⟩ := ih rfl
    refine ⟨?_, by simp [hasCall, events], ?_⟩
    · rw [Job.values, List.any_cons, List.any_nil, Bool.or_false, hasCall_parts (.inl hf)]
      exact hsplit
    · refine List.forall_mem_append.mpr ⟨hcode, List.forall_mem_singleton.mpr (.stat ?_)⟩
      rw [hasCall_assign, hasCall_assemble (.inl hf) ops.operands_length hvs]
      simp [hasCall, events]
  | @assigned σ σ' op t v vs code ht ops ih =>
    intro _
    obtain ⟨hsplit, hvs, hcode⟩ := ih rfl
    have hf : form (.assign op t v) = .assigned := if_pos ht
    have hlen := ops.operands_length
    refine ⟨?_, List.forall_mem_singleton.mpr (hasCall_placeFrom ht ?_ hvs), ?_⟩
    · rw [Job.values, List.any_cons, List.any_nil, Bool.or_false, hasCall_parts (.inr hf)]
      exact hsplit
    · rw [hlen, parts, List.length_append]
      omega
    · refine List.forall_mem_append.mpr ⟨hcode, List.forall_mem_singleton.mpr (.stat ?_)⟩
      exact hasCall_assemble (.inr hf) hlen hvs
  | called ops ih =>
    intro _
    obtain ⟨-, hvs, hcode⟩ := ih rfl
    refine ⟨by simp [Job.values, hasCall, events, isCall], by simp [hasCall, events], ?_⟩
    refine List.forall_mem_append.mpr ⟨hcode, List.forall_mem_cons.mpr ⟨?_, ?_⟩⟩
    · exact lone_call ops.operands_length hvs
    · refine List.forall_mem_singleton.mpr (.stat ?_)
      rw [hasCall_assign, henv]
      simp [hasCall, events]
  | operandsNil => simp [Job.values]
  | operandsCons _ _ ih ih' =>
    intro _
    obtain ⟨hsplit, hv, hcode⟩ := ih rfl
    obtain ⟨hsplit', hvs, hcode'⟩ := ih' rfl
    refine ⟨?_, ?_, List.forall_mem_append.mpr ⟨hcode, hcode'⟩⟩
    · rw [hsplit, hsplit']
      simp [Job.values]
    · exact List.forall_mem_cons.mpr ⟨hv _ List.mem_cons_self, hvs⟩
  | leads hl => cases hl <;> exact fun h => absurd h Bool.false_ne_true
  | void hv => cases hv <;> exact fun h => absurd h Bool.false_ne_true
  | _ => exact fun h => absurd h Bool.false_ne_true

theorem operand_matches {op : String} {e : Node} (hm : mutates op = true)
    (hlen : vs.length = (operandParts op e).length) (hσ : σ.Grows σ') :
    CalleeMatches σ.container σ.names σ'.names e (operandFrom σ op e vs) := by
  cases ht : isTarget e with
  | false => exact .other _ ht
  | true =>
    have hplace : (mutates op && isTarget e) = true := by rw [hm, ht, Bool.and_self]
    rw [operandParts, if_pos hplace] at hlen
    rw [operandFrom, if_pos hplace]
    exact place_matches ht (by omega) hσ

/-- The event of an expression is that of the expression put together from the values. -/
theorem own_kept (h : form n = .combined ∨ form n = .assigned ∨ form n = .called)
    (ops : Emits env (.operands (parts n)) σ vs split code σ') :
    Kept σ σ' (own n) (own (assemble σ n vs)) := by
  have hlen := ops.operands_length
  have hσ := ops.grows
  cases n with
  | call c args =>
    refine .own (.call (callee_matches ops) ?_) .nil
    rw [parts, List.length_append] at hlen
    rw [List.length_drop]
    omega
  | unary side op e =>
    simp only [own, assemble]
    split
    · next hm => exact .own (.unary side op (operand_matches hm hlen hσ)) .nil
    · exact Kept.nil σ σ'
  | assign op t v =>
    have ht := isTarget_of_form h
    rw [parts, List.length_append] at hlen
    exact .own (.assign op _ _ (place_matches ht (by omega) hσ)) .nil
  | array es | object ps => exact Kept.nil σ σ'
  | new c args | dot b f => rcases vs with _ | ⟨v, vs⟩ <;> exact Kept.nil σ σ'
  | binary op l r | sub b i => rcases vs with _ | ⟨v, _ | ⟨w, vs⟩⟩ <;> exact Kept.nil σ σ'
  | _ => rcases h with h | h | h <;> cases h

/-- The events of what is walked are performed by the code, or by the values where nothing was
    split. -/
def Job.Performed (σ σ' : Scope) (vs : List Node) (split : Bool) (code : List Instr) : Job → Prop
  | .expr n => n.Orderly →
      Kept σ σ' n.events (code.flatMap Instr.events ++ if split then [] else vs.flatMap events)
  | .operands ns => InOrder ns → (∀ n ∈ ns, n.Orderly) →
      Kept σ σ' (ns.flatMap events) (code.flatMap Instr.events ++ vs.flatMap events)
  | _ => True

/-- An expression performs its events with the values of its operands. -/
theorem assemble_kept (h : form n = .combined ∨ form n = .assigned ∨ form n = .called)
    (ops : Emits env (.operands (parts n)) σ vs split code σ')
    (hops : (Job.operands (parts n)).Performed σ σ' vs split code) (ho : n.Orderly) :
    Kept σ σ' n.events (code.flatMap Instr.events ++ (assemble σ n vs).events) := by
  rw [events_parts h, events_assemble h ops.operands_length, ← List.append_assoc]
  exact Performs.append (hops ho.operands ho.each) (own_kept h ops)

/-- Changes behind what was performed. -/
theorem Kept.behind (h : Kept σ σ₁ s t) (hx : ∀ m ∈ t', isCall m = false) :
    Kept σ σ₁ s (t ++ t') := by
  have hall := Performs.append h (.extras hx)
  rw [List.append_nil] at hall
  exact hall

theorem Kept.then_set (h : Kept σ σ₁ s t) (target value : Node) (hσ : σ₁.Grows σ₂) :
    Kept σ σ₂ s (t ++ [.assign "" target value]) :=
  Performs.widen (h.behind (by simp [isCall])) (List.Subset.refl _) hσ.names.subset

theorem Emits.performed (henv : env.returnValue.hasCall = false)
    (h : Emits env job σ vs split code σ') : job.Performed σ σ' vs split code := by
  induction h with
  | reference x =>
    intro _
    simpa [events, events_resolve] using Kept.nil _ _
  | literal hf =>
    intro _
    simpa [events_of_literal hf] using Kept.nil _ _
  | @copied σ n hf =>
    intro _
    obtain ⟨hn, hcopy⟩ := events_of_copied (σ := σ) hf
    simpa [hn, hcopy] using Kept.nil _ _
  | kept hf ops ih =>
    intro ho
    simpa using assemble_kept (hf.elim .inl (.inr ∘ .inl)) ops ih ho
  | @captured σ σ' n vs code hf ops ih =>
    intro ho
    have hkept := assemble_kept (.inl hf) ops ih ho
    -- the change of the temp comes behind the events of its value
    have hset := hkept.then_set (.name σ'.nextTemp.1) (assemble σ n vs) (Scope.grows_nextTemp σ')
    simpa [events] using hset
  | @assigned σ σ' op t v vs code ht ops ih =>
    intro ho
    have hf : form (.assign op t v) = .assigned := if_pos ht
    have hkept := assemble_kept (.inr (.inl hf)) ops ih ho
    simpa using hkept
  | @called σ σ' c args vs split code ops ih =>
    intro ho
    have hkept := assemble_kept (.inr (.inr rfl)) ops ih ho
    have hvalue := hkept.behind (isCall_of_not_hasCall henv)
    have hset := hvalue.then_set (.name σ'.nextTemp.1) env.returnValue (Scope.grows_nextTemp σ')
    simpa [captureInstr, callInstr, events] using hset
  | operandsNil =>
    intro _ _
    exact Kept.nil _ _
  | @operandsCons σ σ₁ σ₂ n v ns vs split split' code code' head tail ih ih' =>
    intro hord heach
    unfold InOrder at hord
    rw [List.pairwise_cons] at hord
    rw [List.forall_mem_cons] at heach
    have hhead := ih heach.1
    have htail := ih' hord.2 heach.2
    obtain ⟨hsplit, hv, -⟩ := head.lone henv rfl
    obtain ⟨hsplit', -, -⟩ := tail.lone henv rfl
    have hstill := isCall_of_not_hasCall (hv v List.mem_cons_self)
    -- the value of the head is read behind the code of the tail; what it still does is a change
    have hlate := Performs.insert htail hstill
    cases split with
    | true =>
      have hall := hhead.append hlate head.grows tail.grows
      simpa using hall
    | false =>
      obtain rfl := (head.value_code rfl).2.1 rfl
      cases split' with
      | false =>
        obtain rfl := (tail.value_code rfl).2.1 rfl
        have hall := hhead.append htail head.grows tail.grows
        simpa using hall
      | true =>
        -- a call follows, so the head has no events at all
        have hnone : n.events = [] := by
          obtain ⟨q, hq, hcall⟩ := List.any_eq_true.mp hsplit'.symm
          have hn : n.hasCall = false := by simpa [Job.values] using hsplit.symm
          have hor := hord.1 q hq hcall
          rw [hn] at hor
          simpa using hor
        have hall := (Kept.nil σ σ₁).append hlate head.grows tail.grows
        simpa [hnone] using hall
  | leads hl => cases hl <;> trivial
  | void hv => cases hv <;> trivial
  | _ => trivial

/-! ## §2. From events to instructions. -/

/-- The instructions of an expression keep its order: those before the instruction of a call, and
    the operands of that instruction, perform what the source does before the call. -/
def OrderKept (container : String) (hoisted locals : List String) (e : Node) (code : List Instr) :
    Prop :=
  ∀ before call after, e.events = before ++ call :: after → isCall call = true →
    ∃ xs i ys, code = xs ++ i :: ys ∧ CallMatches container hoisted locals call i ∧
      xs.countP (fun j => j.command == "call") = before.countP isCall ∧
      Performs container hoisted locals before (xs.flatMap Instr.events ++ i.events.dropLast)

variable {container : String} {hoisted locals : List String} {i : Instr} {call : Node}
  {before after : List Node}

theorem countP_isCall_of_not_hasCall (h : n.hasCall = false) : n.events.countP isCall = 0 := by
  rw [List.countP_eq_zero]
  intro m hm
  simp [isCall_of_not_hasCall h m hm]

/-- An instruction is a call if its payload has one. -/
theorem lone_countP (h : Lone i) :
    i.events.countP isCall = [i].countP (fun j => j.command == "call") := by
  cases h with
  | stat he =>
    rw [Instr.events_stat, countP_isCall_of_not_hasCall he]
    rfl
  | @call c args async hparts =>
    have hc := countP_isCall_of_not_hasCall (hparts c List.mem_cons_self)
    have hargs : (args.flatMap events).countP isCall = 0 := by
      rw [List.countP_eq_zero]
      intro m hm
      obtain ⟨n, hn, hm⟩ := List.mem_flatMap.mp hm
      simp [isCall_of_not_hasCall (hparts n (List.mem_cons_of_mem c hn)) m hm]
    simp [Instr.command, events, eventsAll_eq, isCall, hc, hargs]

theorem not_mem_of_countP {s : List Node} (h : s.countP isCall = 0) (hcall : isCall call = true) :
    call ∉ s := by
  intro hmem
  exact List.countP_eq_zero.mp h call hmem hcall

/-- The instruction that performs a call is that call, and what the source does before the call is
    done by its operands. -/
theorem lone_call_matches (hi : Lone i)
    (h : Performs container hoisted locals (before ++ call :: after) i.events)
    (hcall : isCall call = true) :
    CallMatches container hoisted locals call i ∧ before.countP isCall = 0 ∧
      Performs container hoisted locals before i.events.dropLast := by
  have hmem : call ∈ before ++ call :: after := by simp
  cases hi with
  | stat he =>
    rw [Instr.events_stat] at h
    have hnone := h.countP_isCall.trans (countP_isCall_of_not_hasCall he)
    exact absurd hmem (not_mem_of_countP hnone hcall)
  | @call c args async hparts =>
    have hone := h.countP_isCall.trans (lone_countP (.call async hparts))
    have hevents : Instr.events (.leaf "call" (.stat (.call c args)) async) =
        (c.events ++ Node.eventsAll args) ++ [.call c args] := by
      simp [events]
    rw [hevents] at h ⊢
    obtain ⟨s₁, s₂, hs, h₁, h₂⟩ := h.split
    obtain ⟨m, rfl, hm⟩ := h₂.of_call rfl
    have hm' : isCall m = true := hm.isCall_eq.symm.trans rfl
    -- the call performed last is the only one
    have hrest : s₁.countP isCall = 0 := by
      rw [hs, List.countP_append] at hone
      simp [Instr.command, hm'] at hone
      simpa using hone
    rcases after.eq_nil_or_concat with rfl | ⟨init, last, rfl⟩
    · obtain ⟨rfl, heq⟩ := List.append_inj' hs rfl
      cases heq
      rw [List.dropLast_concat]
      cases hm with
      | call callee count => exact ⟨.call async callee count, hrest, h₁⟩
    · have hs' : (before ++ call :: init) ++ [last] = s₁ ++ [m] := by simpa using hs
      obtain ⟨rfl, -⟩ := List.append_inj' hs' rfl
      exact absurd (by simp) (not_mem_of_countP hrest hcall)

/-- Instructions that perform events in order, call by call. -/
theorem exists_call_of_performs (hcode : ∀ i ∈ code, Lone i)
    (h : Performs container hoisted locals (before ++ call :: after) (code.flatMap Instr.events))
    (hcall : isCall call = true) :
    ∃ xs i ys, code = xs ++ i :: ys ∧ CallMatches container hoisted locals call i ∧
      xs.countP (fun j => j.command == "call") = before.countP isCall ∧
      Performs container hoisted locals before (xs.flatMap Instr.events ++ i.events.dropLast) := by
  induction code generalizing before with
  | nil =>
    have hnone : call ∉ before ++ call :: after :=
      not_mem_of_countP h.countP_isCall hcall
    simp at hnone
  | cons j code ih =>
    rw [List.forall_mem_cons] at hcode
    rw [List.flatMap_cons] at h
    obtain ⟨s₁, s₂, hs, h₁, h₂⟩ := h.split
    -- the call is performed by the first instruction or by the others
    have hwhere : (∃ after', s₁ = before ++ call :: after') ∨
        ∃ before', before = s₁ ++ before' ∧ s₂ = before' ++ call :: after := by
      rcases List.append_eq_append_iff.mp hs with ⟨a, rfl, ha⟩ | ⟨b, hb, rfl⟩
      · cases a with
        | nil => exact .inr ⟨[], by simp, ha.symm⟩
        | cons m a =>
          cases ha
          exact .inl ⟨a, rfl⟩
      · exact .inr ⟨b, hb, rfl⟩
    rcases hwhere with ⟨after', rfl⟩ | ⟨before', rfl, rfl⟩
    · obtain ⟨hmatch, hcount, hbefore⟩ := lone_call_matches hcode.1 h₁ hcall
      exact ⟨[], j, code, rfl, hmatch, hcount.symm, hbefore⟩
    · obtain ⟨xs, i, ys, rfl, hmatch, hcount, hbefore⟩ := ih hcode.2 h₂
      refine ⟨j :: xs, i, ys, rfl, hmatch, ?_, ?_⟩
      · have hj := h₁.countP_isCall.trans (lone_countP hcode.1)
        rw [← List.singleton_append, List.countP_append, hcount, ← hj, List.countP_append]
      · rw [List.flatMap_cons, List.append_assoc]
        exact h₁.append hbefore

/-- The code of an orderly expression keeps its order. -/
theorem Emits.effect_ordered (henv : env.returnValue.hasCall = false)
    (h : Emits env (.effect n) σ vs split code σ') (ho : n.Orderly) :
    OrderKept σ.container σ.names σ'.names n code := by
  cases h with
  | leads hl => cases hl
  | void hv => cases hv
  | @effect _ _ _ v _ code value =>
    obtain ⟨-, hv, hcode⟩ := value.lone henv rfl
    have hkept := value.performed henv ho
    -- where nothing was split, the value becomes an instruction
    have hall : (∀ i ∈ code ++ unsplitStat split v, Lone i) ∧
        Kept σ σ' n.events ((code ++ unsplitStat split v).flatMap Instr.events) := by
      cases split with
      | true =>
        simp only [unsplitStat, if_true, List.append_nil] at *
        exact ⟨hcode, hkept⟩
      | false =>
        refine ⟨List.forall_mem_append.mpr ⟨hcode, List.forall_mem_singleton.mpr (.stat ?_)⟩, ?_⟩
        · exact hv v List.mem_cons_self
        · simpa [unsplitStat] using hkept
    intro before call after hevents hcall
    unfold Kept at hall
    rw [hevents] at hall
    exact exists_call_of_performs hall.1 hall.2 hcall

end

theorem OrderKept.widen {container : String} {hoisted hoisted' locals locals' : List String}
    {e : Node} {code : List Instr} (h : OrderKept container hoisted locals e code)
    (hh : hoisted' ⊆ hoisted) (hl : locals ⊆ locals') :
    OrderKept container hoisted' locals' e code := by
  intro before call after hevents hcall
  obtain ⟨xs, i, ys, hcode, hmatch, hcount, hbefore⟩ := h before call after hevents hcall
  exact ⟨xs, i, ys, hcode, hmatch.widen hh hl, hcount, hbefore.widen hh hl⟩

end Walk

/-! ## §3. Whole programs. -/

theorem Naming.dotted_hasCall (path : String) : (Naming.dotted path).hasCall = false := by
  have hevents : (dotted path).events = [] :=
    dotted_of (P := fun _ n => n.events = []) path (fun _ => rfl) fun _ _ n f h => by
      rw [Node.events, h]
  rw [Node.hasCall, hevents]
  rfl

/-- Every expression statement, at any depth, has its code in the program of a unit, one after the
    other.  In the code of an orderly one the calls and changes keep their order. -/
theorem transform_keeps_order (naming : Naming) (isAsync : String → Bool) (unit : Node)
    (t : Transformed) (h : (transform naming isAsync unit).1 = .ok t) :
    ∃ body, unit = .toplevel body ∧ ∃ codes : List (List Instr),
      codes.flatten.Sublist (Instr.walkAll t.program) ∧
      List.Forall₂ (fun e code => Instr.Within code t.program ∧ (e.Orderly →
          Walk.OrderKept naming.container (Node.varsAll body) t.locals e code))
        (Node.effectsAll body) codes := by
  obtain ⟨body, σ, rfl, hd⟩ := transform_emits h
  obtain ⟨vs, split, he⟩ := hd.emits
  obtain ⟨codes, hwalk, hcodes⟩ := he.laid nofun
  refine ⟨body, rfl, codes, hwalk, hcodes.imp fun e code hcode => ?_⟩
  obtain ⟨hin, σ₁, σ₂, vs', split', hown, h₁, h₂⟩ := hcode
  refine ⟨hin, fun ho => ?_⟩
  have hkept := hown.effect_ordered (Naming.dotted_hasCall naming.returnValue) ho
  rw [h₁.container, (naming.declares_scope body).container] at hkept
  refine hkept.widen ?_ ?_
  · exact fun x hx => h₁.names.subset (Scope.mem_declareAll.mpr (.inr hx))
  · rw [hd.locals]
    exact h₂.names.subset

/-- Changes inside the arguments of calls, in a branch: `if (c) f(x = 1) + g(y++)`. -/
theorem transform_keeps_order_of_arguments :
    let e : Node := .binary "+" (.call (.name "f") [.assign "" (.name "x") (.num "1")])
      (.call (.name "g") [.unary .after "++" (.name "y")])
    let body : List Node := [.ifElse (.name "c") (.stat e) .absent]
    ∃ t, (transform {} (fun _ => false) (.toplevel body)).1 = .ok t ∧
      (∃ body', Node.toplevel body = .toplevel body' ∧ ∃ codes : List (List Instr),
        codes.flatten.Sublist (Instr.walkAll t.program) ∧
        List.Forall₂ (fun e code => Instr.Within code t.program ∧ (e.Orderly →
            Walk.OrderKept "$$locals" (Node.varsAll body') t.locals e code))
          (Node.effectsAll body') codes) ∧
      e ∈ Node.effectsAll body ∧ e.Orderly := by
  intro e body
  obtain ⟨t, ht⟩ : ∃ t, (transform {} (fun _ => false) (.toplevel body)).1 = .ok t :=
    exists_of_isOk (by decide +kernel)
  have hname : ∀ x, (Node.name x).Orderly := fun x => .intro .nil nofun
  have hnum : (Node.num "1").Orderly := .intro .nil nofun
  have hx : (Node.assign "" (.name "x") (.num "1")).Orderly :=
    .intro (List.pairwise_singleton _ _) (List.forall_mem_singleton.mpr hnum)
  have hy : (Node.unary .after "++" (.name "y")).Orderly := .intro .nil nofun
  -- a callee has no events and the one argument no call, so nothing is out of order
  have hcall : ∀ f a, Node.Orderly a → a.hasCall = false →
      (Node.call (.name f) [a]).Orderly := by
    intro f a ha hstill
    refine .intro ?_ (List.forall_mem_cons.mpr ⟨hname f, List.forall_mem_singleton.mpr ha⟩)
    refine List.pairwise_pair.mpr fun h => ?_
    rw [hstill] at h
    cases h
  refine ⟨t, ht, transform_keeps_order {} (fun _ => false) (.toplevel body) t ht, ?_, .intro ?_ ?_⟩
  · simp [body, Node.effectsAll, Node.effects]
  · exact List.pairwise_pair.mpr fun _ => .inl rfl
  · exact List.forall_mem_cons.mpr
      ⟨hcall "f" _ hx rfl, List.forall_mem_singleton.mpr (hcall "g" _ hy rfl)⟩

/-- A change in front of a call, as operands of one expression: `(x = 1) + f()`.  The call comes
    first in every part of the program. -/
theorem transform_loses_order :
    let e : Node := .binary "+" (.assign "" (.name "x") (.num "1")) (.call (.name "f") [])
    let body : List Node := [.stat e]
    ∃ t, (transform {} (fun _ => false) (.toplevel body)).1 = .ok t ∧
      e ∈ Node.effectsAll body ∧ ∀ code, Instr.Within code t.program →
        ¬ Walk.OrderKept "$$locals" (Node.varsAll body) t.locals e code := by
  intro e body
  -- the call is the first instruction of three, none of which holds others
  obtain ⟨t, ht, hcheck⟩ := exists_of_okAnd
    (r := (transform {} (fun _ => false) (.toplevel body)).1) (fun t =>
      t.program.all (fun i => i.lists.isEmpty) &&
      (t.program.drop 1).all (fun i => i.command != "call") &&
      (t.program.take 1).all (fun i => i.events.length == 1)) (by decide +kernel)
  refine ⟨t, ht, by simp [body, Node.effectsAll, Node.effects], fun code hin hkept => ?_⟩
  simp only [Bool.and_eq_true, List.all_eq_true, List.isEmpty_iff, bne_iff_ne, beq_iff_eq] at hcheck
  obtain ⟨⟨hflat, hlater⟩, hfirst⟩ := hcheck
  have hevents : e.events =
      [.assign "" (.name "x") (.num "1")] ++ .call (.name "f") [] :: [] := by
    simp [e, Node.events, Node.eventsAll]
  obtain ⟨xs, i, ys, rfl, hmatch, -, hbefore⟩ := hkept _ _ _ hevents rfl
  have hcall : i.command = "call" := by
    cases hmatch
    rfl
  cases hin with
  | deeper hi hl _ =>
    rw [hflat _ hi] at hl
    cases hl
  | here hinfix =>
    obtain ⟨front, back, hprogram⟩ := hinfix
    rw [List.append_assoc, List.append_assoc, List.cons_append, ← List.append_assoc] at hprogram
    rw [← hprogram] at hlater hfirst
    cases hfront : front ++ xs with
    | cons j rest =>
      rw [hfront] at hlater
      exact absurd hcall (hlater i (by simp))
    | nil =>
      obtain ⟨-, rfl⟩ := List.append_eq_nil_iff.mp hfront
      rw [hfront] at hfirst
      have hone : i.events.length = 1 := hfirst i (by simp)
      have hnil : i.events.dropLast = [] := by
        rw [← List.length_eq_zero_iff, List.length_dropLast, hone]
      rw [hnil] at hbefore
      cases hbefore

end Program

end Resumable
