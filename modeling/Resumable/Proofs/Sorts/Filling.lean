/-
  Resumable.Proofs.Sorts.Filling — a gapless unit has a gapless program.

  Copying empties no position and a walk leaves none empty that has to be filled: the values that
  it puts together are expressions, and the statements that it makes of them are there.

  Main statements: `filling_sound`, `Emits.gapless` and `transform_gapless`.
-/
import Resumable.Proofs.Sorts.Compiling
import Resumable.Proofs.Sorts.Gaps
import Resumable.Proofs.Walk.Shapes

namespace Resumable.Program

open Node (Gapless Seated gapless_iff gapless_one gapless_two gapless_three gapless_four
  gapless_list gapless_fields gapless_applied)

/-! ## §1. Copies. -/

section

variable {p : Position} {n : Node}

theorem gapless_of_leaf (h : n.positions = []) : Gapless n :=
  gapless_iff.mpr (by rw [h]; exact List.forall_mem_nil _)

theorem field_gapless (σ : Scope) (x : String) : Gapless (σ.field x) :=
  (field_fits σ x (.inl rfl)).seated.gapless

theorem resolve_seated (σ : Scope) (x : String) : Seated p (σ.resolve x) := by
  have hx : Seated .operand (σ.resolve x) := (resolve_fits σ x (.inl rfl)).seated
  exact hx.gapless.seated (hx.present rfl)

/-- A list of assignments as one expression. -/
theorem assignments_seated {es : List Node} (h : ∀ e ∈ es, Seated .operand e) :
    Seated p (assignments es) := by
  match es with
  | [] => exact (gapless_of_leaf rfl).seated rfl
  | [e] =>
    have he : Seated .operand e := h e List.mem_cons_self
    exact he.gapless.seated (he.present rfl)
  | a :: b :: es =>
    have hseq : Gapless (.seq (a :: b :: es)) := (gapless_list rfl).mpr h
    exact hseq.seated rfl

end

/-- Copies of gapless trees: they are gapless, and there if the trees are. -/
def filling : Copying where
  invariant _ := True
  source _ n := Gapless n
  copy _ n m := Gapless m ∧ (m.isAbsent = true → n.isAbsent = true)

/-- A copy of what may stand at a position may stand there as well. -/
theorem filling_seated {around : List (List String)} {p : Position} {n m : Node}
    (h : filling.copy around n m) (hn : Seated p n) : Seated p m :=
  ⟨fun ha => hn.filled (h.2 ha), h.1⟩

theorem assigned_seated {ds : List (String × Node)} {es : List Node}
    (h : List.Forall₂ filling.Assigned ds es) : ∀ e ∈ es, Seated .operand e := by
  induction h with
  | nil => exact List.forall_mem_nil _
  | @cons d e ds es h _ ih =>
    refine List.forall_mem_cons.mpr ⟨?_, ih⟩
    cases h with
    | @bare σ x i =>
      have hassign : Gapless (.assign "" (σ.field x) .null) :=
        (gapless_two rfl).mpr ⟨(field_gapless σ x).seated rfl, (gapless_of_leaf rfl).seated rfl⟩
      exact hassign.seated rfl
    | @bound σ x i v _ hi hv =>
      have hv' : v.isAbsent = false := Bool.eq_false_iff.mpr fun ha => by
        rw [hv.2 ha] at hi
        cases hi
      have hassign : Gapless (.assign "" (σ.field x) v) :=
        (gapless_two rfl).mpr ⟨(field_gapless σ x).seated rfl, hv.1.seated hv'⟩
      exact hassign.seated rfl

theorem filling_sound : filling.Sound where
  part hn p hp := (gapless_iff.mp hn p hp).gapless
  declare _ _ _ _ := trivial
  hidden _ hn := ⟨hn, id⟩
  resolved {around σ x} _ _ hn := by
    have hx : Seated .operand (σ.resolve x) := resolve_seated σ x
    exact ⟨hx.gapless, fun ha => absurd (hx.filled ha) Bool.false_ne_true⟩
  kept hparts hn hm := by
    refine ⟨gapless_iff.mpr fun q hq => ?_, fun ha => ?_⟩
    · obtain ⟨p, hp, hpq, hcopy⟩ := hm.origin hq
      rw [hpq]
      exact filling_seated hcopy (gapless_iff.mp hn p hp)
    · rw [Node.isAbsent_eq_isNone, ← hm.kind, ← Node.isAbsent_eq_isNone]
      exact ha
  bindings _ hes :=
    ⟨(gapless_one rfl).mpr (assignments_seated (assigned_seated hes)), nofun⟩
  header hn hes hc hst hb := by
    obtain ⟨-, hc', hst', hb'⟩ := (gapless_four rfl).mp hn
    exact ⟨(gapless_four rfl).mpr ⟨assignments_seated (assigned_seated hes), filling_seated hc hc',
      filling_seated hst hst', filling_seated hb hb'⟩, nofun⟩
  iterator {σ x _ _ _ _ _} _ hn ho hb := by
    obtain ⟨-, ho', hb'⟩ := (gapless_three rfl).mp hn
    exact ⟨(gapless_three rfl).mpr ⟨(field_gapless σ x).seated rfl, filling_seated ho ho',
      filling_seated hb hb'⟩, nofun⟩

/-- A copy of a gapless tree is gapless. -/
theorem Walk.copy_gapless {σ : Scope} {n : Node} (h : Gapless n) : Gapless (copy σ n) :=
  (rename_sound filling_sound [] n h σ trivial).2.1

/-! ## §2. Operands and values. -/

namespace Instr

/-- A list of instructions in which nothing is missing but what may be, nested ones included. -/
def SeatedAll (list : List Instr) : Prop := Every (fun i => ∀ p ∈ i.positions, Seated p.1 p.2) list

/-- A statement as an instruction, or a condition as a test. -/
theorem seatedAll_leaf {command : String} {n : Node} {async : Bool} (h : Gapless n)
    (hn : n.isAbsent = false) : SeatedAll [.leaf command n async] :=
  every_single.mpr ⟨List.forall_mem_singleton.mpr (h.seated hn), every_nil⟩

theorem seatedAll_stat {e : Node} (h : Seated .operand e) : SeatedAll [.stat e] :=
  seatedAll_leaf ((gapless_one rfl).mpr h) rfl

theorem seatedAll_set {t v : Node} (ht : Seated .target t) (hv : Seated .operand v) :
    SeatedAll [.set t v] :=
  seatedAll_stat (((gapless_two rfl).mpr ⟨ht, hv⟩).seated rfl)

end Instr

namespace Walk

open Instr (SeatedAll every_nil every_append every_single seatedAll_leaf seatedAll_stat
  seatedAll_set)

variable {env : Surface} {job job' : Job} {σ σ' : Scope} {n v : Node} {vs : List Node}
  {split : Bool} {code : List Instr} {p : Position}

theorem placeParts_seated (h : Gapless n) : ∀ m ∈ placeParts n, Seated .operand m := by
  cases n with
  | dot b f => exact List.forall_mem_singleton.mpr ((gapless_one rfl).mp h)
  | sub b i =>
    obtain ⟨hb, hi⟩ := (gapless_two rfl).mp h
    exact List.forall_mem_cons.mpr ⟨hb, List.forall_mem_singleton.mpr hi⟩
  | _ => exact List.forall_mem_nil _

theorem partsIf_seated {b : Bool} (h : Seated .operand n) :
    ∀ m ∈ (if b then placeParts n else [n]), Seated .operand m := by
  cases b with
  | true => exact placeParts_seated h.gapless
  | false => exact List.forall_mem_singleton.mpr h

/-- The operands of a gapless expression are there. -/
theorem parts_seated (h : Gapless n) : ∀ m ∈ parts n, Seated .operand m := by
  cases n with
  | call c as =>
    obtain ⟨hc, has⟩ := (gapless_applied rfl).mp h
    exact List.forall_mem_append.mpr ⟨partsIf_seated hc, has⟩
  | new c as => exact List.forall_mem_cons.mpr ((gapless_applied rfl).mp h)
  | binary op l r | sub l r =>
    obtain ⟨hl, hr⟩ := (gapless_two rfl).mp h
    exact List.forall_mem_cons.mpr ⟨hl, List.forall_mem_singleton.mpr hr⟩
  | unary side op e => exact partsIf_seated ((gapless_one rfl).mp h)
  | assign op t v =>
    obtain ⟨ht, hv⟩ := (gapless_two rfl).mp h
    exact List.forall_mem_append.mpr
      ⟨placeParts_seated ht.gapless, List.forall_mem_singleton.mpr hv⟩
  | dot b f => exact List.forall_mem_singleton.mpr ((gapless_one rfl).mp h)
  | array es => exact (gapless_list rfl).mp h
  | object ps => exact List.forall_mem_map.mpr ((gapless_fields rfl).mp h)
  | _ => exact List.forall_mem_nil _

theorem placeFrom_seated {t : Node} (ht : isTarget t = true)
    (hlen : (placeParts t).length ≤ vs.length) (hvs : ∀ v ∈ vs, Seated .operand v) :
    Seated p (placeFrom σ t vs) := by
  cases t with
  | name x => exact resolve_seated σ x
  | dot b f =>
    match vs, hlen with
    | v :: _, _ => exact ((gapless_one rfl).mpr (hvs v List.mem_cons_self)).seated rfl
  | sub b i =>
    match vs, hlen with
    | v :: w :: _, _ =>
      obtain ⟨hv, hws⟩ := List.forall_mem_cons.mp hvs
      exact ((gapless_two rfl).mpr ⟨hv, hws w List.mem_cons_self⟩).seated rfl
  | _ => cases ht

/-- What a callee or an operand becomes is there. -/
theorem fromIf_seated {b : Bool} {c : Node} (hb : b = true → isTarget c = true)
    (hlen : (if b then placeParts c else [c]).length ≤ vs.length)
    (hvs : ∀ v ∈ vs, Seated .operand v) :
    Seated .operand (if b then placeFrom σ c vs else vs.headD c) := by
  cases b with
  | true => exact placeFrom_seated (hb rfl) hlen hvs
  | false =>
    match vs, hlen with
    | v :: _, _ => exact hvs v List.mem_cons_self

/-- An expression with other operands is gapless if they are there. -/
theorem assemble_seated (h : form n = .combined ∨ form n = .assigned ∨ form n = .called)
    (hlen : vs.length = (parts n).length) (hvs : ∀ v ∈ vs, Seated .operand v) :
    Seated p (assemble σ n vs) := by
  cases n with
  | call c as =>
    rw [parts, List.length_append] at hlen
    have hcallee : Seated .operand (calleeFrom σ c vs) :=
      fromIf_seated isTarget_of_isMember (by rw [hlen]; exact Nat.le_add_right _ _) hvs
    have hargs : ∀ v ∈ vs.drop (calleeParts c).length, Seated .operand v :=
      fun v hv => hvs v (List.mem_of_mem_drop hv)
    exact ((gapless_applied rfl).mpr ⟨hcallee, hargs⟩).seated rfl
  | new c as =>
    match vs, hlen with
    | v :: ws, _ => exact ((gapless_applied rfl).mpr (List.forall_mem_cons.mp hvs)).seated rfl
  | binary op l r | sub l r =>
    match vs, hlen with
    | [v, w], _ =>
      obtain ⟨hv, hw⟩ := List.forall_mem_cons.mp hvs
      exact ((gapless_two rfl).mpr ⟨hv, hw w List.mem_cons_self⟩).seated rfl
  | unary side op e =>
    have hoperand : Seated .operand (operandFrom σ op e vs) :=
      fromIf_seated (fun hm => (Bool.and_eq_true_iff.mp hm).2) (Nat.le_of_eq hlen.symm) hvs
    exact ((gapless_one rfl).mpr hoperand).seated rfl
  | assign op t v =>
    rw [parts, List.length_append, List.length_singleton] at hlen
    have htarget : Seated .target (placeFrom σ t vs) :=
      placeFrom_seated (isTarget_of_form h) (by omega) hvs
    have hvalue : Seated .operand ((vs.drop (placeParts t).length).headD .absent) := by
      rcases hdrop : vs.drop (placeParts t).length with _ | ⟨w, ws⟩
      · have := List.drop_eq_nil_iff.mp hdrop
        omega
      · exact hvs w (List.mem_of_mem_drop (hdrop ▸ List.mem_cons_self))
    exact ((gapless_two rfl).mpr ⟨htarget, hvalue⟩).seated rfl
  | dot b f =>
    match vs, hlen with
    | v :: _, _ => exact ((gapless_one rfl).mpr (hvs v List.mem_cons_self)).seated rfl
  | array es => exact ((gapless_list rfl).mpr hvs).seated rfl
  | object ps =>
    have hfields : ∀ q ∈ (ps.map (·.1)).zip vs, Seated .operand q.2 :=
      fun q hq => hvs q.2 (List.of_mem_zip hq).2
    exact ((gapless_fields rfl).mpr hfields).seated rfl
  | _ => rcases h with h | h | h <;> cases h

/-! ## §3. Derivations. -/

theorem Job.gapless_of_leads (h : job.Leads job') (hs : ∀ m ∈ job.trees, Gapless m) :
    ∀ m ∈ job'.trees, Gapless m := by
  cases h with
  | expression h | region n | step n => exact hs
  | stat e =>
    exact List.forall_mem_singleton.mpr ((gapless_one rfl).mp (hs _ List.mem_cons_self)).gapless
  | var ds =>
    have hds := (gapless_fields rfl).mp (hs _ List.mem_cons_self)
    exact List.forall_mem_map.mpr fun d hd => (hds d hd).gapless
  | block ns | splice ns =>
    exact fun m hm => ((gapless_list rfl).mp (hs _ List.mem_cons_self) m hm).gapless

/-- A walk over gapless trees makes gapless instructions and values.  Where nothing was split and
    nothing walked there is no value, and there need not be one. -/
theorem Emits.gapless (hret : Seated .operand env.returnValue)
    (h : Emits env job σ vs split code σ') (hs : ∀ m ∈ job.trees, Gapless m) :
    (∀ v ∈ vs, Seated (job.position split) v) ∧ SeatedAll code := by
  have hname {p : Position} (x : String) : Seated p (.name x) := (gapless_of_leaf rfl).seated rfl
  induction h with
  | reference x =>
    exact ⟨List.forall_mem_singleton.mpr (resolve_seated _ x), every_nil⟩
  | literal hf =>
    have hpresent := Node.isAbsent_of_isExpression (isExpression_of_literal hf)
    exact ⟨List.forall_mem_singleton.mpr ((hs _ List.mem_cons_self).seated hpresent), every_nil⟩
  | @copied σ n hf =>
    have hn : Gapless (copy σ n) := copy_gapless (hs _ List.mem_cons_self)
    have hpresent := Node.isAbsent_of_isExpression (copy_isExpression (σ := σ) hf)
    exact ⟨List.forall_mem_singleton.mpr (hn.seated hpresent), every_nil⟩
  | @kept σ _ n _ _ hf ops ih =>
    obtain ⟨hvs, hcode⟩ := ih fun m hm => (parts_seated (hs _ List.mem_cons_self) m hm).gapless
    have hform : form n = .combined ∨ form n = .assigned ∨ form n = .called :=
      hf.elim .inl (.inr ∘ .inl)
    have hvalue := assemble_seated (σ := σ) (p := .operand) hform ops.operands_length hvs
    exact ⟨List.forall_mem_singleton.mpr hvalue, hcode⟩
  | @captured σ _ _ _ _ hf ops ih =>
    obtain ⟨hvs, hcode⟩ := ih fun m hm => (parts_seated (hs _ List.mem_cons_self) m hm).gapless
    have hvalue := assemble_seated (σ := σ) (p := .operand) (.inl hf) ops.operands_length hvs
    exact ⟨List.forall_mem_singleton.mpr (hname _),
      every_append.mpr ⟨hcode, seatedAll_set (hname _) hvalue⟩⟩
  | @assigned σ σ' op t v vs code ht ops ih =>
    obtain ⟨hvs, hcode⟩ := ih fun m hm => (parts_seated (hs _ List.mem_cons_self) m hm).gapless
    have hform : form (.assign op t v) = .assigned := by rw [form, if_pos ht]
    have hlen := ops.operands_length
    have hvalue := assemble_seated (σ := σ) (p := .operand) (.inr (.inl hform)) hlen hvs
    rw [parts, List.length_append] at hlen
    have htarget := placeFrom_seated (σ := σ) (p := .operand) ht (by omega) hvs
    exact ⟨List.forall_mem_singleton.mpr htarget,
      every_append.mpr ⟨hcode, seatedAll_stat hvalue⟩⟩
  | @called σ σ' c args vs split code ops ih =>
    obtain ⟨hvs, hcode⟩ := ih fun m hm => (parts_seated (hs _ List.mem_cons_self) m hm).gapless
    have hvs' : ∀ v ∈ vs, Seated .operand v := hvs
    have hcall := assemble_seated (σ := σ) (p := .operand) (n := .call c args) (.inr (.inr rfl))
      ops.operands_length hvs'
    have hinstr : SeatedAll [callInstr env σ c args vs] :=
      seatedAll_leaf ((gapless_one rfl).mpr hcall) rfl
    exact ⟨List.forall_mem_singleton.mpr (hname _),
      every_append.mpr ⟨hcode, every_append.mpr ⟨hinstr, seatedAll_set (hname _) hret⟩⟩⟩
  | operandsNil => exact ⟨List.forall_mem_nil _, every_nil⟩
  | operandsCons head tail ihHead ihTail =>
    obtain ⟨hn, hns⟩ := List.forall_mem_cons.mp hs
    obtain ⟨hv, hcode⟩ := ihHead (List.forall_mem_singleton.mpr hn)
    obtain ⟨hvs, hcode'⟩ := ihTail hns
    exact ⟨List.forall_mem_cons.mpr ⟨List.forall_mem_singleton.mp hv, hvs⟩,
      every_append.mpr ⟨hcode, hcode'⟩⟩
  | @effect σ σ' n v split code value ih =>
    obtain ⟨hv, hcode⟩ := ih hs
    refine ⟨hv, every_append.mpr ⟨hcode, ?_⟩⟩
    cases split with
    | true => exact every_nil
    | false => exact seatedAll_stat (List.forall_mem_singleton.mp hv)
  | @leads _ _ _ _ _ split _ hl _ ih =>
    obtain ⟨hvs, hcode⟩ := ih (Job.gapless_of_leads hl hs)
    refine ⟨fun v hv => ⟨fun ha => ?_, (hvs v hv).gapless⟩, hcode⟩
    have hmay := (hvs v hv).filled ha
    cases split <;> cases hl <;> first | exact hmay | cases hmay
  | void hv =>
    refine ⟨List.forall_mem_singleton.mpr ?_, every_nil⟩
    cases hv <;> exact ⟨fun _ => rfl, Node.gapless_absent⟩
  | branch cond _ _ ihCond ihYes ihNo =>
    obtain ⟨hc, hyes, hno⟩ := (gapless_three rfl).mp (hs _ List.mem_cons_self)
    obtain ⟨hv, hcode⟩ := ihCond (List.forall_mem_singleton.mpr hc.gapless)
    obtain ⟨-, hyesList⟩ := ihYes (List.forall_mem_singleton.mpr hyes.gapless)
    obtain ⟨-, hnoList⟩ := ihNo (List.forall_mem_singleton.mpr hno.gapless)
    refine ⟨List.forall_mem_nil _, every_append.mpr ⟨hcode, every_single.mpr ⟨?_, ?_⟩⟩⟩
    · exact List.forall_mem_singleton.mpr (List.forall_mem_singleton.mp hv)
    · exact every_append.mpr ⟨hyesList, hnoList⟩
  | @test _ _ _ _ split _ _ ih =>
    obtain ⟨hv, hcode⟩ := ih hs
    have hcond : Seated .operand _ := List.forall_mem_singleton.mp hv
    have hpresent := hcond.present rfl
    exact ⟨List.forall_mem_singleton.mpr (hcond.gapless.seated hpresent),
      every_append.mpr ⟨hcode, seatedAll_leaf hcond.gapless hpresent⟩⟩
  | @loop _ _ _ _ _ init cond step body c e is bs _ condSplit stepSplit _ _ _ _ _ _ _ _ _
      ihInit ihTest ihStep ihBody =>
    obtain ⟨hinit, hcond, hstep, hbody⟩ := (gapless_four rfl).mp (hs _ List.mem_cons_self)
    obtain ⟨-, hinitList⟩ := ihInit (List.forall_mem_singleton.mpr hinit.gapless)
    obtain ⟨hc, htestList⟩ := ihTest (List.forall_mem_singleton.mpr hcond.gapless)
    obtain ⟨he, hstepList⟩ := ihStep (List.forall_mem_singleton.mpr hstep.gapless)
    obtain ⟨-, hbodyList⟩ := ihBody (List.forall_mem_singleton.mpr hbody.gapless)
    refine ⟨List.forall_mem_nil _, every_append.mpr ⟨hinitList, every_single.mpr ⟨?_, ?_⟩⟩⟩
    · refine List.forall_mem_cons.mpr ⟨?_, List.forall_mem_singleton.mpr ?_⟩
      · have hc := List.forall_mem_singleton.mp hc
        cases condSplit <;> exact hc
      · have he := List.forall_mem_singleton.mp he
        cases stepSplit with
        | true => exact ⟨fun _ => rfl, Node.gapless_absent⟩
        | false => exact he
    · exact every_append.mpr ⟨every_append.mpr ⟨htestList, hstepList⟩, hbodyList⟩
  | declaration _ ih =>
    have hbody := (gapless_list rfl).mp (hs _ List.mem_cons_self)
    obtain ⟨-, hlist⟩ := ih fun m hm => (hbody m hm).gapless
    exact ⟨List.forall_mem_nil _, every_single.mpr ⟨List.forall_mem_nil _, hlist⟩⟩
  | @passed σ n hp =>
    have hn : Gapless (copy σ n) := copy_gapless (hs _ List.mem_cons_self)
    obtain ⟨hcopy, -⟩ := isPassed_copy (σ := σ) hp
    exact ⟨List.forall_mem_nil _, seatedAll_leaf hn (isAbsent_of_isPassed hcopy)⟩
  | stmtsNil | bindingsNil => exact ⟨List.forall_mem_nil _, every_nil⟩
  | stmtsCons _ _ ihHead ihTail =>
    obtain ⟨hn, hns⟩ := List.forall_mem_cons.mp hs
    obtain ⟨-, hcode⟩ := ihHead (List.forall_mem_singleton.mpr hn)
    obtain ⟨-, hcode'⟩ := ihTail hns
    exact ⟨List.forall_mem_nil _, every_append.mpr ⟨hcode, hcode'⟩⟩
  | @bare σ _ x _ _ _ _ _ ih =>
    obtain ⟨-, hcode⟩ := ih (List.forall_mem_cons.mp hs).2
    have hset := seatedAll_set ((field_gapless σ x).seated rfl)
      (show Seated .operand .null from (gapless_of_leaf rfl).seated rfl)
    exact ⟨List.forall_mem_nil _, hset.cons hcode⟩
  | @bound σ _ _ x _ v _ _ split _ _ _ _ _ ihValue ihRest =>
    obtain ⟨hinit, hds⟩ := List.forall_mem_cons.mp hs
    obtain ⟨hv, hcode⟩ := ihValue (List.forall_mem_singleton.mpr hinit)
    obtain ⟨-, hcode'⟩ := ihRest hds
    have hfield : Seated .target (σ.field x) := (field_gapless σ x).seated rfl
    have hset := seatedAll_set hfield (List.forall_mem_singleton.mp hv)
    have hmark : SeatedAll (placeholder split (σ.field x)) := by
      cases split with
      | true => exact seatedAll_set hfield ((gapless_of_leaf rfl).seated rfl)
      | false => exact every_nil
    exact ⟨List.forall_mem_nil _,
      every_append.mpr ⟨every_append.mpr ⟨hmark, hcode⟩, hset.cons hcode'⟩⟩

end Walk

/-! ## §4. Trees of programs. -/

open Instr (SeatedAll every_append every_cons)

mutual

theorem inlined_seated (n : Node) (h : Seated .statement n) :
    ∀ m ∈ n.inlined, Seated .statement m := by
  cases n with
  | absent => cases h.filled rfl
  | splice ns =>
    rw [Node.inlined]
    exact flatten_seated ns ((gapless_list rfl).mp h.gapless)
  | _ => exact List.forall_mem_singleton.mpr h
termination_by structural n

/-- No statement of a list is missing where splices dissolve. -/
theorem flatten_seated (ns : List Node) (h : ∀ n ∈ ns, Seated .statement n) :
    ∀ m ∈ Node.flatten ns, Seated .statement m := by
  cases ns with
  | nil =>
    rw [Node.flatten]
    exact List.forall_mem_nil _
  | cons n ns =>
    obtain ⟨hn, hns⟩ := List.forall_mem_cons.mp h
    rw [Node.flatten]
    exact List.forall_mem_append.mpr ⟨inlined_seated n hn, flatten_seated ns hns⟩
termination_by structural ns

end

section

variable {cond stepExpr : Node} {ns test step body : List Node}

theorem rebuildSide_seated {p : Position} (temp : Option String)
    (h : ∀ n ∈ ns, Seated .statement n) :
    (∀ n ∈ (rebuildSide temp ns).1, Seated .statement n) ∧ Seated p (rebuildSide temp ns).2 := by
  cases temp with
  | none => exact ⟨List.forall_mem_nil _, ((gapless_list rfl).mpr h).seated rfl⟩
  | some t =>
    have hname : Seated .operand (.name t) := (gapless_of_leaf rfl).seated rfl
    exact ⟨h, ((gapless_one rfl).mpr hname).seated rfl⟩

theorem rebuildBranch_seated {yes no : List Node × Node} (hcond : Seated .operand cond)
    (hyes : (∀ n ∈ yes.1, Seated .statement n) ∧ Seated .statement yes.2)
    (hno : (∀ n ∈ no.1, Seated .statement n) ∧ Seated .optionalStatement no.2) :
    Seated .statement (rebuildBranch cond yes no) := by
  have hif : Gapless (.ifElse cond yes.2 no.2) :=
    (gapless_three rfl).mpr ⟨hcond, hyes.2, hno.2⟩
  unfold rebuildBranch
  dsimp only
  split
  · exact hif.seated rfl
  · have hlist : Gapless (.spliceOf (yes.1 ++ no.1 ++ [.ifElse cond yes.2 no.2])) := by
      refine (gapless_list rfl).mpr fun n hn => ?_
      have hmem := (List.mem_filter.mp hn).1
      rw [List.mem_append, List.mem_append, List.mem_singleton] at hmem
      rcases hmem with (hn | hn) | rfl
      · exact hyes.1 n hn
      · exact hno.1 n hn
      · exact hif.seated rfl
    exact hlist.seated rfl

theorem rebuildLoop_seated {condSplit : Bool}
    (hcond : Seated (if condSplit then .operand else .optional) cond)
    (hstepExpr : Seated .optional stepExpr) (htest : ∀ n ∈ test, Seated .statement n)
    (hstep : ∀ n ∈ step, Seated .statement n) (hbody : ∀ n ∈ body, Seated .statement n) :
    Seated .statement (rebuildLoop cond test step body condSplit stepExpr) := by
  have nothing {p : Position} (hp : p.mayBeEmpty = true) : Seated p .absent :=
    ⟨fun _ => hp, Node.gapless_absent⟩
  have hlast : ∀ n ∈ (if stepExpr.isAbsent then step else []), Seated .statement n := by
    split
    · exact hstep
    · exact List.forall_mem_nil _
  have hloop : ∀ {head : Node} {check : List Node}, Seated .optional head →
      (∀ n ∈ check, Seated .statement n) →
      Seated .statement (.forLoop .absent head stepExpr
        (.block (check ++ body ++ if stepExpr.isAbsent then step else []))) := by
    intro head check hhead hcheck
    have hblock : Gapless (.block (check ++ body ++ if stepExpr.isAbsent then step else [])) :=
      (gapless_list rfl).mpr (List.forall_mem_append.mpr
        ⟨List.forall_mem_append.mpr ⟨hcheck, hbody⟩, hlast⟩)
    have hfor := (gapless_four (n := .forLoop _ _ _ _) rfl).mpr
      ⟨nothing rfl, hhead, hstepExpr, hblock.seated rfl⟩
    exact hfor.seated rfl
  cases condSplit with
  | false => exact hloop hcond (List.forall_mem_nil _)
  | true =>
    -- the condition moves into the body, behind what was split out of it
    refine hloop (nothing rfl) (List.forall_mem_append.mpr ⟨fun n hn => ?_, ?_⟩)
    · exact htest n (List.dropLast_subset test hn)
    · have hnot : Gapless (.unary .before "!" cond) := (gapless_one rfl).mpr hcond
      have hbreak : Gapless (.breakTo "") := gapless_of_leaf rfl
      have hguard := (gapless_three (n := .ifElse _ _ _) rfl).mpr
        ⟨hnot.seated rfl, hbreak.seated rfl, nothing rfl⟩
      exact List.forall_mem_singleton.mpr (hguard.seated rfl)

end

mutual

theorem rebuild_seated (i : Instr) (h : ∀ p ∈ i.positions, Seated p.1 p.2)
    (hi : SeatedAll i.inner) : Seated .statement (rebuild i) := by
  cases i with
  | leaf command code async =>
    have hcode := List.forall_mem_singleton.mp h
    rw [rebuild]
    split
    · next hc =>
      rw [if_pos hc] at hcode
      exact ((gapless_one rfl).mpr hcode).seated rfl
    · next hc =>
      rw [if_neg hc] at hcode
      exact hcode
  | branch cond yes no hasElse shape yesTemp noTemp =>
    obtain ⟨hyes, hno⟩ := every_append.mp hi
    have hcond : Seated .operand cond := h (.operand, cond) List.mem_cons_self
    rw [rebuild]
    refine rebuildBranch_seated hcond (rebuildSide_seated yesTemp (rebuildAll_seated yes hyes)) ?_
    cases hasElse with
    | false => exact ⟨List.forall_mem_nil _, fun _ => rfl, Node.gapless_absent⟩
    | true => exact rebuildSide_seated noTemp (rebuildAll_seated no hno)
  | loop cond test step body condSplit stepExpr =>
    obtain ⟨hcond, hlast⟩ := List.forall_mem_cons.mp h
    have hstepExpr : Seated .optional stepExpr := hlast (.optional, stepExpr) List.mem_cons_self
    obtain ⟨htests, hbody⟩ := every_append.mp hi
    obtain ⟨htest, hstep⟩ := every_append.mp htests
    rw [rebuild]
    exact rebuildLoop_seated hcond hstepExpr (rebuildAll_seated test htest)
      (rebuildAll_seated step hstep) (rebuildAll_seated body hbody)
  | defun name params body =>
    rw [rebuild]
    exact ((gapless_list rfl).mpr (rebuildAll_seated body hi)).seated rfl
termination_by structural i

/-- The statements that stand for a gapless program are there. -/
theorem rebuildAll_seated (list : List Instr) (h : SeatedAll list) :
    ∀ n ∈ rebuildAll list, Seated .statement n := by
  cases list with
  | nil => exact List.forall_mem_nil _
  | cons i rest =>
    obtain ⟨hi, hinner, hrest⟩ := every_cons.mp h
    exact List.forall_mem_cons.mpr ⟨rebuild_seated i hi hinner, rebuildAll_seated rest hrest⟩
termination_by structural list

end

/-! ## §5. Units. -/

/-- A gapless unit has a gapless program and a gapless tree. -/
theorem transform_gapless {naming : Naming} {isAsync : String → Bool} {unit : Node}
    {t : Transformed} (h : Gapless unit) (ht : (transform naming isAsync unit).1 = .ok t) :
    SeatedAll t.program ∧ Gapless t.tree := by
  obtain ⟨body, σ, rfl, hd⟩ := transform_emits ht
  obtain ⟨vs, split, he⟩ := hd.emits
  have hbody := (gapless_list rfl).mp h
  have hprogram : SeatedAll t.program :=
    (he.gapless (Naming.dotted_fits _).seated fun m hm => (hbody m hm).gapless).2
  rw [transform_tree ht]
  exact ⟨hprogram, (gapless_list rfl).mpr (flatten_seated _ (rebuildAll_seated _ hprogram))⟩

end Resumable.Program
