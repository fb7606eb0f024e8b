/-
  Resumable.Proofs.Changes.Values — the changes of an expression, in its code and in its value.

  A walk of an expression makes each change of it once, with the values of its operands: in the code
  if the change is split, in the value if it is not.  It makes a change once more where the value of
  a split assignment is used, and it sets temps.  `Spread` says so of any code: what is done is what
  the source does, what is done once more, and what sets some targets.

  Nothing is said of the order, so all lists are multisets, and what is done in two places is added
  up.

  Main statement: `Emits.spreads`.
-/
import Mathlib.Data.Multiset.AddSub
import Mathlib.Tactic.Abel
import Resumable.Proofs.Changes.Residue

namespace Resumable.Program

open Node (change changes changesAll changesAll_cons changesAll_one
  changes_children changes_whole changes_name change_targetless repeats repeats_targetless residue
  total totalAll)

namespace Instr

/-! ## §1. The changes of a program. -/

/-- The changes of a payload or of the condition of a branch. -/
def changes : Instr → Multiset Node
  | leaf _ code _ => code.changes
  | branch cond _ _ _ _ _ _ => cond.changes
  | loop _ _ _ _ _ _ => 0
  | defun _ _ _ => 0

/-- The changes of a list of instructions, nested ones included. -/
def changesAll (list : List Instr) : Multiset Node := ((walkAll list).map changes).sum

@[simp] theorem changesAll_append (xs ys : List Instr) :
    changesAll (xs ++ ys) = changesAll xs + changesAll ys := by
  unfold changesAll
  rw [walkAll_append, List.map_append, List.sum_append]

/-- An instruction makes its own changes and those of what it holds. -/
theorem changesAll_single (i : Instr) : changesAll [i] = i.changes + changesAll i.inner := by
  unfold changesAll
  rw [walkAll_cons, List.map_cons, List.sum_cons]
  simp [walkAll]

theorem changesAll_leaf (command : String) (code : Node) (async : Bool) :
    changesAll [.leaf command code async] = code.changes := by
  rw [changesAll_single]
  exact add_zero _

theorem changes_stat (e : Node) : (Node.stat e).changes = e.changes := by
  rw [changes_children rfl rfl rfl (l := [e]) rfl, changesAll_one]

theorem changesAll_stat (e : Node) : changesAll [stat e] = e.changes := by
  rw [stat, changesAll_leaf, changes_stat]

/-- Setting something is a change. -/
theorem changesAll_set {target : Node} (ht : target.changes = 0) (value : Node) :
    changesAll [set target value] = value.changes + {.assign "" target value} := by
  rw [set, changesAll_stat, Node.changes, Node.total_children rfl rfl (l := [target, value]) rfl,
    Node.totalAll_cons, Node.totalAll_cons, Node.totalAll_nil, add_zero]
  show {.assign "" target value} + (target.changes + value.changes) = _
  rw [ht, zero_add, add_comm]

end Instr

namespace Walk

section

variable {env : Surface} {job : Job} {σ σ' σ₁ σ₂ : Scope} {n v m m' : Node} {ns vs : List Node}
  {split : Bool} {code : List Instr} {s s' r r' t t' d d' : Multiset Node}

/-! ## §2. Changes that are accounted for. -/

/-- A change of the source with the values of its operands, which are walked between two scopes. -/
def Rewritten (env : Surface) (σ σ' : Scope) (m m' : Node) : Prop :=
  ∃ (σ₁ σ₂ : Scope) (vs : List Node) (split : Bool) (code : List Instr), σ.Grows σ₁ ∧
    σ₂.Grows σ' ∧ Emits env (.operands (parts m)) σ₁ vs split code σ₂ ∧ m' = assemble σ₁ m vs

/-- A plain assignment to something. -/
def Sets (target m : Node) : Prop := ∃ v, m = .assign "" target v

/-- What is done is what the source does, what is done once more, and what sets some targets. -/
def Spread (env : Surface) (σ σ' : Scope) (source again targets done : Multiset Node) : Prop :=
  ∃ own more added, done = own + more + added ∧
    Multiset.Rel (Rewritten env σ σ') source own ∧
    Multiset.Rel (Rewritten env σ σ') again more ∧ Multiset.Rel Sets targets added

theorem Rewritten.widen (h : Rewritten env σ₁ σ₂ m m') (hσ : σ.Grows σ₁) (hσ' : σ₂.Grows σ') :
    Rewritten env σ σ' m m' := by
  obtain ⟨σ₃, σ₄, vs, split, code, h₁, h₂, hops, hm⟩ := h
  exact ⟨σ₃, σ₄, vs, split, code, hσ.trans h₁, h₂.trans hσ', hops, hm⟩

theorem rel_widen (h : Multiset.Rel (Rewritten env σ₁ σ₂) s d) (hσ : σ.Grows σ₁)
    (hσ' : σ₂.Grows σ') : Multiset.Rel (Rewritten env σ σ') s d :=
  h.mono fun _ _ _ _ hm => hm.widen hσ hσ'

theorem Spread.zero : Spread env σ σ' 0 0 0 0 := ⟨0, 0, 0, rfl, .zero, .zero, .zero⟩

theorem Spread.widen (h : Spread env σ₁ σ₂ s r t d) (hσ : σ.Grows σ₁) (hσ' : σ₂.Grows σ') :
    Spread env σ σ' s r t d := by
  obtain ⟨own, more, added, hd, hs, hr, ht⟩ := h
  exact ⟨own, more, added, hd, rel_widen hs hσ hσ', rel_widen hr hσ hσ', ht⟩

theorem Spread.add (h : Spread env σ σ' s r t d) (h' : Spread env σ σ' s' r' t' d') :
    Spread env σ σ' (s + s') (r + r') (t + t') (d + d') := by
  obtain ⟨own, more, added, rfl, hs, hr, ht⟩ := h
  obtain ⟨own', more', added', rfl, hs', hr', ht'⟩ := h'
  refine ⟨own + own', more + more', added + added', ?_, hs.add hs', hr.add hr', ht.add ht'⟩
  abel

/-- What is done one after the other. -/
theorem Spread.append (h : Spread env σ σ₁ s r t d) (h' : Spread env σ₁ σ₂ s' r' t' d')
    (hσ : σ.Grows σ₁) (hσ' : σ₁.Grows σ₂) :
    Spread env σ σ₂ (s + s') (r + r') (t + t') (d + d') :=
  (h.widen (.refl σ) hσ').add (h'.widen hσ (.refl σ₂))

theorem Spread.own (h : Multiset.Rel (Rewritten env σ σ') s d) : Spread env σ σ' s 0 0 d :=
  ⟨d, 0, 0, by simp, h, .zero, .zero⟩

theorem Spread.more (h : Multiset.Rel (Rewritten env σ σ') r d) : Spread env σ σ' 0 r 0 d :=
  ⟨0, d, 0, by simp, .zero, h, .zero⟩

theorem Spread.set (target v : Node) : Spread env σ σ' 0 0 {target} {.assign "" target v} :=
  ⟨0, 0, _, by simp, .zero, .zero, .cons ⟨v, rfl⟩ .zero⟩

/-- The same, listed otherwise. -/
theorem Spread.congr (h : Spread env σ σ' s r t d) (hs : s' = s) (hr : r' = r) (ht : t' = t)
    (hd : d' = d) : Spread env σ σ' s' r' t' d' := by
  rw [hs, hr, ht, hd]
  exact h

/-! ## §3. Temps and fields. -/

/-- The temps made between two scopes. -/
def made (σ σ' : Scope) : Multiset Node := ((σ.tempsTo σ').map Node.name : List Node)

theorem made_declares (h : σ.Declares σ') : made σ σ' = 0 := by
  unfold made
  rw [h.tempsTo]
  rfl

theorem made_append (hσ : σ.Grows σ₁) (hσ' : σ₁.Grows σ₂) :
    made σ σ₂ = made σ σ₁ + made σ₁ σ₂ := by
  unfold made
  rw [hσ.tempsTo_append hσ', List.map_append, Multiset.coe_add]

theorem made_nextTemp : made σ σ.nextTemp.2 = {.name σ.nextTemp.1} := by
  unfold made
  rw [Scope.tempsTo_nextTemp]
  rfl

theorem changes_field (σ : Scope) (x : String) : (σ.field x).changes = 0 := by
  unfold Scope.field
  rw [changes_children rfl rfl rfl (l := [.name σ.container]) rfl, changesAll_one, changes_name]

/-! ## §4. Derivations of values. -/

theorem changes_of_literal (h : form n = .literal) : n.changes = 0 := by
  unfold changes
  cases n with
  | num _ | string _ | atom _ | regexp _ _ => exact Node.total_leaf rfl rfl
  | assign op t v => rcases form_assign op t v with ha | ha <;> cases ha.symm.trans h
  | _ => cases h

theorem changes_of_copied (h : form n = .copied) : n.changes = 0 ∧ (copy σ n).changes = 0 := by
  cases n with
  | conditional _ _ _ | seq _ | function _ _ _ =>
    exact ⟨changes_whole rfl, by rw [copy, rename]; exact changes_whole rfl⟩
  | assign op t v => rcases form_assign op t v with ha | ha <;> cases ha.symm.trans h
  | _ => cases h

/-- A change is one again when its operands have values. -/
theorem change_rewritten (h : form n = .combined ∨ form n = .assigned ∨ form n = .called)
    (ops : Emits env (.operands (parts n)) σ vs split code σ') :
    Multiset.Rel (Rewritten env σ σ') n.change (assemble σ n vs).change := by
  have hrel : (assemble σ n vs).isChange = n.isChange := by
    cases n with
    | call c args | unary side op e | assign op t v | array es | object ps => rfl
    | new c args | dot b f =>
      match vs with
      | [] | _ :: _ => rfl
    | binary op l r | sub b i =>
      match vs with
      | [] | [_] | _ :: _ :: _ => rfl
    | _ => rcases h with h | h | h <;> cases h
  unfold change
  rw [hrel]
  cases n.isChange with
  | false => exact .zero
  | true => exact .cons ⟨σ, σ', vs, split, code, .refl σ, .refl σ', ops, rfl⟩ .zero

/-- The values of expressions make what is left of their changes. -/
def Leaves (env : Surface) (σ σ' : Scope) (ns vs : List Node) : Prop :=
  List.Forall₂ (fun n v => Multiset.Rel (Rewritten env σ σ') n.residue v.changes) ns vs

theorem Leaves.widen (h : Leaves env σ₁ σ₂ ns vs) (hσ : σ.Grows σ₁) (hσ' : σ₂.Grows σ') :
    Leaves env σ σ' ns vs :=
  h.imp fun _ _ hv => rel_widen hv hσ hσ'

theorem Leaves.sum (h : Leaves env σ σ' ns vs) :
    Multiset.Rel (Rewritten env σ σ') (ns.map residue).sum (changesAll vs) := by
  induction h with
  | nil => exact .zero
  | cons hv _ ih =>
    rw [List.map_cons, List.sum_cons, changesAll_cons]
    exact hv.add ih

/-- Values make all the changes of expressions that are not split. -/
theorem Leaves.unsplit (h : Leaves env σ σ' ns vs) (hns : ns.any Node.hasCall = false) :
    Multiset.Rel (Rewritten env σ σ') (changesAll ns) (changesAll vs) := by
  have hsum : (ns.map residue).sum = changesAll ns := by
    unfold changesAll totalAll
    congr 1
    refine List.map_congr_left fun n hn => Node.residue_of_not_hasCall ?_
    have hnone := List.any_eq_false.mp hns n hn
    simpa using hnone
  rw [← hsum]
  exact h.sum

/-- What a walk of values emits and leaves. -/
def Job.Spreads (env : Surface) (σ σ' : Scope) (vs : List Node) (split : Bool)
    (code : List Instr) : Job → Prop
  | .expr n => Spread env σ σ' n.changes (totalAll repeats (parts n)) (made σ σ')
      (Instr.changesAll code + if split then 0 else changesAll vs) ∧ Leaves env σ σ' [n] vs
  | .operands ns => Spread env σ σ' (changesAll ns) (totalAll repeats ns) (made σ σ')
      (Instr.changesAll code + changesAll vs) ∧ Leaves env σ σ' ns vs
  | _ => True

/-- An expression that stays as it is and changes nothing. -/
theorem spreads_still (hc : n.hasCall = false) (hn : n.changes = 0) (hv : v.changes = 0)
    (hp : parts n = []) (hσ : σ.Declares σ') : (Job.expr n).Spreads env σ σ' [v] false [] := by
  refine ⟨Spread.zero.congr hn ?_ (made_declares hσ) ?_, .cons ?_ .nil⟩
  · rw [hp]
    rfl
  · rw [if_neg Bool.false_ne_true, changesAll_one, hv]
    rfl
  · rw [Node.residue_of_not_hasCall hc, hn, hv]
    exact .zero

/-- The values of operands are put together, in a payload or in a value. -/
theorem assembled_spread (h : form n = .combined ∨ form n = .assigned ∨ form n = .called)
    (ops : Emits env (.operands (parts n)) σ vs split code σ')
    (hops : (Job.operands (parts n)).Spreads env σ σ' vs split code) :
    Spread env σ σ' n.changes (totalAll repeats (parts n)) (made σ σ')
      (Instr.changesAll code + (assemble σ n vs).changes) := by
  refine (hops.1.add (.own (change_rewritten h ops))).congr ?_ (add_zero _).symm
    (add_zero _).symm ?_
  · exact (total_parts change_targetless h).trans (add_comm _ _)
  · rw [show (assemble σ n vs).changes = _ from
      total_assemble change_targetless h ops.operands_length, add_assoc,
      add_comm (changesAll vs)]
    rfl

theorem Emits.walked (h : Emits env (.expr n) σ vs split code σ') : form n ≠ .misplaced := by
  cases h with
  | reference =>
    intro h
    cases h
  | literal hf | copied hf | captured hf => simp [hf]
  | kept hf => rcases hf with hf | hf <;> simp [hf]
  | assigned ht => simp [form, ht]
  | called =>
    intro h
    cases h
  | leads hl => cases hl
  | void hv => cases hv

theorem Emits.hasCall_eq (henv : env.returnValue.hasCall = false)
    (h : Emits env (.expr n) σ vs split code σ') : split = n.hasCall := by
  have hsplit := (h.lone henv rfl).1
  rw [hsplit]
  simp [Job.values]

/-- An expression whose value is used makes its changes, and once more what is left of them in the
    value of an expression that was split. -/
theorem value_spread (henv : env.returnValue.hasCall = false)
    (h : Emits env (.expr n) σ [v] split code σ')
    (hs : (Job.expr n).Spreads env σ σ' [v] split code) :
    Spread env σ σ' n.changes (total repeats n) (made σ σ')
      (Instr.changesAll code + v.changes) := by
  obtain ⟨hspread, hleaves⟩ := hs
  have hused := total_walked repeats_targetless h.walked
  have hcall := h.hasCall_eq henv
  cases split with
  | false =>
    refine hspread.congr rfl ?_ rfl ?_
    · rw [hused, Node.repeats_of_not_hasCall hcall.symm, zero_add]
    · rw [if_neg Bool.false_ne_true, changesAll_one]
  | true =>
    -- what the code makes, and on top of it what reading the value makes
    have hvalue := hleaves.sum
    rw [List.map_singleton, List.sum_singleton, changesAll_one] at hvalue
    refine (hspread.add (.more hvalue)).congr (add_zero _).symm ?_ (add_zero _).symm ?_
    · rw [hused, Node.repeats_of_hasCall hcall.symm, add_comm]
    · rw [if_pos rfl, add_zero]

/-- A walk of values makes the changes of its source, in its code and in the values. -/
theorem Emits.spreads (henv : env.returnValue.hasCall = false)
    (hret : env.returnValue.changes = 0) (h : Emits env job σ vs split code σ') :
    job.Spreads env σ σ' vs split code := by
  induction h with
  | reference x =>
    exact spreads_still rfl (changes_name x) (total_resolve change_targetless x) rfl (.refl _)
  | @literal σ n hf =>
    have hc : n.hasCall = false := by
      rw [Node.hasCall, events_of_literal hf]
      rfl
    exact spreads_still hc (changes_of_literal hf) (changes_of_literal hf)
      (parts_of_copied (.inl hf)) (.refl _)
  | @copied σ n hf =>
    obtain ⟨hn, hcopy⟩ := changes_of_copied (σ := σ) hf
    have hc : n.hasCall = false := by
      rw [Node.hasCall, (events_of_copied (σ := σ) hf).1]
      rfl
    exact spreads_still hc hn hcopy (parts_of_copied (.inr hf)) (declares_copyScope _ _)
  | @kept σ σ' n vs code hf ops ih =>
    have hform : form n = .combined ∨ form n = .assigned ∨ form n = .called :=
      hf.elim .inl (.inr ∘ .inl)
    -- nothing was split, so the value makes all the changes
    have hnone : (parts n).any Node.hasCall = false := ((ops.lone henv rfl).1).symm
    refine ⟨(assembled_spread hform ops ih).congr rfl rfl rfl ?_, .cons ?_ .nil⟩
    · rw [if_neg Bool.false_ne_true, changesAll_one]
    · rw [Node.residue_of_not_hasCall ((hasCall_parts hf).trans hnone)]
      have hall := (change_rewritten hform ops).add (ih.2.unsplit hnone)
      rw [show n.changes = _ from total_parts change_targetless hform,
        show (assemble σ n vs).changes = _ from
          total_assemble change_targetless hform ops.operands_length]
      exact hall
  | @captured σ σ' n vs code hf ops ih =>
    have hcall : n.hasCall = true := (hasCall_parts (.inl hf)).trans ((ops.lone henv rfl).1).symm
    -- the changes are made where the temp is set, and reading it makes none
    have hall := (assembled_spread (.inl hf) ops ih).append
      (Spread.set (.name σ'.nextTemp.1) (assemble σ n vs)) ops.grows (Scope.grows_nextTemp σ')
    refine ⟨hall.congr (add_zero _).symm (add_zero _).symm ?_ ?_, .cons ?_ .nil⟩
    · rw [made_append ops.grows (Scope.grows_nextTemp σ'), made_nextTemp]
    · rw [if_pos rfl, add_zero, Instr.changesAll_append, Instr.changesAll_set (changes_name _),
        add_assoc]
    · rw [Node.residue_of_split hcall (.inl hf), changes_name]
      exact .zero
  | @assigned σ σ' op t v vs code ht ops ih =>
    have hf : form (.assign op t v) = .assigned := if_pos ht
    have hcall : (Node.assign op t v).hasCall = true :=
      (hasCall_parts (.inr hf)).trans ((ops.lone henv rfl).1).symm
    refine ⟨(assembled_spread (.inr (.inl hf)) ops ih).congr rfl rfl rfl ?_, .cons ?_ .nil⟩
    · rw [if_pos rfl, add_zero, Instr.changesAll_append, Instr.changesAll_stat]
    · -- the value has the operands of what is assigned to, but not the one that is assigned
      have hlen := ops.operands_length
      rw [parts, List.length_append] at hlen
      have hplace : Leaves env σ σ' (placeParts t) (vs.take (placeParts t).length) := by
        have htake := List.forall₂_take (placeParts t).length ih.2
        rw [parts, List.take_left] at htake
        exact htake
      rw [Node.residue_assign hcall, show (placeFrom σ t vs).changes = _ from
        total_placeFrom change_targetless ht (by omega)]
      exact hplace.sum
  | @called σ σ' c args vs split code ops ih =>
    have hcall : (Node.call c args).hasCall = true := by
      simp [Node.hasCall, Node.events, isCall]
    have hall := (assembled_spread (.inr (.inr rfl)) ops ih).append
      (Spread.set (.name σ'.nextTemp.1) env.returnValue) ops.grows (Scope.grows_nextTemp σ')
    refine ⟨hall.congr (add_zero _).symm (add_zero _).symm ?_ ?_, .cons ?_ .nil⟩
    · rw [made_append ops.grows (Scope.grows_nextTemp σ'), made_nextTemp]
    · have hpair : Instr.changesAll [callInstr env σ c args vs, captureInstr env σ'.nextTemp.1] =
          (assemble σ (.call c args) vs).changes +
            {.assign "" (.name σ'.nextTemp.1) env.returnValue} := by
        rw [← List.singleton_append, Instr.changesAll_append, callInstr, Instr.changesAll_leaf,
          Instr.changes_stat, captureInstr, Instr.changesAll_set (changes_name _), hret, zero_add]
      rw [if_pos rfl, add_zero, Instr.changesAll_append, hpair, add_assoc]
    · rw [Node.residue_of_split hcall (.inr rfl), changes_name]
      exact .zero
  | operandsNil => exact ⟨Spread.zero.congr rfl rfl (made_declares (.refl _)) rfl, .nil⟩
  | @operandsCons σ σ₁ σ₂ n v ns vs split split' code code' head tail ih ih' =>
    -- the value of an operand is used, by the payload or the value it ends up in
    have hall := (value_spread henv head ih).append ih'.1 head.grows tail.grows
    refine ⟨hall.congr (changesAll_cons n ns) Node.totalAll_cons
      (made_append head.grows tail.grows) ?_, ?_⟩
    · rw [Instr.changesAll_append, changesAll_cons]
      abel
    · have hhead := ih.2.widen (.refl σ) tail.grows
      have htail := ih'.2.widen head.grows (.refl σ₂)
      cases hhead with
      | cons hv _ =>
        unfold Leaves at htail
        exact .cons hv htail
  | leads hl => cases hl <;> trivial
  | void hv => cases hv <;> trivial
  | _ => trivial

end

end Walk

end Resumable.Program
