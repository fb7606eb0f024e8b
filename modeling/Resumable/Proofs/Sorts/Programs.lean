/-
  Resumable.Proofs.Sorts.Programs — the program of a well-sorted unit is well-sorted.

  Copying changes what some nodes are: a name may become a member access, and a `var` outside
  function literals becomes assignments to the container.  Both may stand wherever the node stood
  that they replace, the head of a loop included (`sorting_sound`).

  A walk takes expressions apart and puts them together again from the values of their operands,
  drops statements that it has split, and copies what it does not split.  Whatever it puts into an
  instruction may stand there: an expression where a condition is tested, a statement elsewhere.

  Main statement: `Emits.sorted`, by induction on the derivation.
-/
import Resumable.Proofs.Execution.Agreement
import Resumable.Proofs.Walk.Growth

namespace Resumable.Program

open Node (Fits WellSorted wellSorted_of_leaf wellSorted_iff wellSorted_one wellSorted_two
  wellSorted_three wellSorted_four wellSorted_list wellSorted_fields wellSorted_applied
  loop_of_isHead)

/-! ## §1. Copies. -/

theorem field_fits (σ : Scope) (x : String) {p : Position} (hp : p = .operand ∨ p = .target) :
    Fits p (σ.field x) := by
  refine ⟨?_, (wellSorted_one rfl).mpr ⟨rfl, wellSorted_of_leaf rfl⟩⟩
  rcases hp with rfl | rfl <;> rfl

theorem resolve_fits (σ : Scope) (x : String) {p : Position} (hp : p = .operand ∨ p = .target) :
    Fits p (σ.resolve x) := by
  unfold Scope.resolve
  split
  · exact field_fits σ x hp
  · refine ⟨?_, wellSorted_of_leaf rfl⟩
    rcases hp with rfl | rfl <;> rfl

/-- A list of assignments as one expression. -/
theorem assignments_fits {es : List Node} (h : ∀ e ∈ es, Fits .operand e) :
    Fits .operand (assignments es) := by
  match es with
  | [] => exact ⟨rfl, (wellSorted_list rfl).mpr h⟩
  | [e] => exact h e List.mem_cons_self
  | _ :: _ :: _ => exact ⟨rfl, (wellSorted_list rfl).mpr h⟩

/-- Copies of well-sorted trees: they are well-sorted, and may stand where the trees may, apart from
    a statement that bindings at the head of a loop became. -/
def sorting : Copying where
  invariant _ := True
  source _ n := WellSorted n
  copy around n m := WellSorted m ∧ ∀ p : Position,
    (p.isHead = true → around = [] → ∀ ds, n ≠ .var ds) → p.admits n = true → p.admits m = true

/-- A copy of what fits a position fits it as well. -/
theorem sorting_fits {around : List (List String)} {n m : Node} {p : Position}
    (h : sorting.copy around n m) (hp : p.isHead = false) (hn : Fits p n) : Fits p m :=
  ⟨h.2 p (fun h => by rw [hp] at h; cases h) hn.admitted, h.1⟩

theorem assigned_fits {ds : List (String × Node)} {es : List Node}
    (h : List.Forall₂ sorting.Assigned ds es) (hds : ∀ d ∈ ds, Fits .optional d.2) :
    ∀ e ∈ es, Fits .operand e := by
  induction h with
  | nil => exact List.forall_mem_nil _
  | cons h _ ih =>
    obtain ⟨hd, hds⟩ := List.forall_mem_cons.mp hds
    refine List.forall_mem_cons.mpr ⟨⟨?_, ?_⟩, ih hds⟩
    · cases h <;> rfl
    · cases h with
      | bare =>
        exact (wellSorted_two rfl).mpr ⟨field_fits _ _ (.inr rfl), rfl, wellSorted_of_leaf rfl⟩
      | bound _ hi hv =>
        have hop := hd.of_optional (by rw [hi]; exact Bool.false_ne_true)
        exact (wellSorted_two rfl).mpr ⟨field_fits _ _ (.inr rfl), sorting_fits hv rfl hop⟩

theorem sorting_sound : sorting.Sound where
  part hn p hp := (wellSorted_iff.mp hn p hp).sorted
  declare _ _ _ _ := trivial
  hidden _ hn := ⟨hn, fun _ _ h => h⟩
  resolved {around σ x} _ _ hn := by
    refine ⟨(resolve_fits σ x (.inl rfl)).sorted, fun p _ h => ?_⟩
    unfold Scope.resolve
    split
    · cases p <;> rfl
    · exact h
  kept {around n m} hparts hn hm := by
    refine ⟨wellSorted_iff.mpr fun q hq => ?_, fun p _ h => (hm.admits p).trans h⟩
    obtain ⟨p, hp, hpq, hsorted, hadmits⟩ := hm.origin hq
    have hfits := wellSorted_iff.mp hn p hp
    rw [hpq]
    refine ⟨hadmits _ (fun hhead hout ds hds => ?_) hfits.admitted, hsorted⟩
    -- outside function literals, bindings at a head are not copied part by part
    have hopen : around = [] := by
      unfold Node.within at hout
      split at hout
      · simp at hout
      · exact hout
    rcases loop_of_isHead n p hp hhead with ⟨c, st, b, -, rfl⟩ | ⟨o, b, hiter, rfl⟩
    · rw [hds] at hparts
      exact hparts.header hopen ds c st b rfl
    · have hadmitted := hfits.admitted
      rw [hds] at hparts hadmitted
      rw [hiter] at hadmitted
      match ds with
      | [d] => exact hparts.iterator hopen d o b rfl
      | [] | _ :: _ :: _ => cases hadmitted
  bindings {ds es} hn hes := by
    have hes := assigned_fits hes ((wellSorted_fields rfl).mp hn)
    refine ⟨(wellSorted_one rfl).mpr (assignments_fits hes), fun p hp h => ?_⟩
    cases p with
    | header | iterator => exact absurd rfl (hp rfl rfl ds)
    | _ => exact h
  header {ds es c c' st st' b b'} hn hes hc hst hb := by
    obtain ⟨hi, hc', hst', hb'⟩ := (wellSorted_four rfl).mp hn
    have hes := assigned_fits hes ((wellSorted_fields rfl).mp hi.sorted)
    refine ⟨(wellSorted_four rfl).mpr ⟨(assignments_fits hes).to_optional.to_header,
      sorting_fits hc rfl hc', sorting_fits hst rfl hst', sorting_fits hb rfl hb'⟩, fun p _ h => ?_⟩
    cases p <;> exact h
  iterator {σ x i o o' b b'} _ hn ho hb := by
    obtain ⟨-, ho', hb'⟩ := (wellSorted_three rfl).mp hn
    refine ⟨(wellSorted_three rfl).mpr ⟨(field_fits σ x (.inl rfl)).to_iterator,
      sorting_fits ho rfl ho', sorting_fits hb rfl hb'⟩, fun p _ h => ?_⟩
    cases p <;> exact h

/-- A copy of a construct that fits a position fits it as well. -/
theorem Walk.copy_fits {σ : Scope} {p : Position} (hp : p.isHead = false) {n : Node}
    (h : Fits p n) : Fits p (copy σ n) :=
  sorting_fits (rename_sound sorting_sound [] n h.sorted σ trivial).2 hp h

/-! ## §2. Well-sorted programs. -/

namespace Instr

/-- The positions of an instruction, with what stands there. -/
def positions : Instr → List (Position × Node)
  | leaf command code _ => [(if command == "test" then .operand else .statement, code)]
  | branch cond _ _ _ _ _ _ => [(.operand, cond)]
  | loop cond _ _ _ condSplit stepExpr =>
      [(if condSplit then .operand else .optional, cond), (.optional, stepExpr)]
  | defun _ _ _ => []

/-- A list of instructions in which everything stands where it may, nested ones included. -/
def SortedAll (list : List Instr) : Prop := Every (fun i => ∀ p ∈ i.positions, Fits p.1 p.2) list

/-- A statement as an instruction. -/
theorem sortedAll_leaf {command : String} {n : Node} {async : Bool} (hc : command ≠ "test")
    (h : Fits .statement n) : SortedAll [.leaf command n async] := by
  refine every_single.mpr ⟨?_, every_nil⟩
  rw [positions, if_neg (by simpa using hc)]
  exact List.forall_mem_singleton.mpr h

theorem sortedAll_stat {e : Node} (h : Fits .operand e) : SortedAll [.stat e] :=
  sortedAll_leaf (by decide) ⟨rfl, (wellSorted_one rfl).mpr h⟩

theorem sortedAll_set {t v : Node} (ht : Fits .target t) (hv : Fits .operand v) :
    SortedAll [.set t v] :=
  sortedAll_stat ⟨rfl, (wellSorted_two rfl).mpr ⟨ht, hv⟩⟩

end Instr

namespace Walk

open Instr (SortedAll every_nil every_append every_single sortedAll_leaf sortedAll_stat
  sortedAll_set)

variable {env : Surface} {job : Job} {σ σ' : Scope} {n : Node} {vs : List Node} {split : Bool}
  {code : List Instr}

/-! ## §3. Operands and values. -/

theorem placeParts_sorted (h : WellSorted n) : ∀ m ∈ placeParts n, WellSorted m := by
  cases n with
  | dot b f => exact List.forall_mem_singleton.mpr ((wellSorted_one rfl).mp h).sorted
  | sub b i =>
    obtain ⟨hb, hi⟩ := (wellSorted_two rfl).mp h
    exact List.forall_mem_cons.mpr ⟨hb.sorted, List.forall_mem_singleton.mpr hi.sorted⟩
  | _ => exact List.forall_mem_nil _

/-- A member access may stay where it is; its operands are walked in its place. -/
theorem partsIf_sorted {b : Bool} (h : WellSorted n) :
    ∀ m ∈ (if b then placeParts n else [n]), WellSorted m := by
  cases b with
  | true => exact placeParts_sorted h
  | false => exact List.forall_mem_singleton.mpr h

/-- The operands of a well-sorted expression are well-sorted. -/
theorem parts_sorted (h : WellSorted n) : ∀ m ∈ parts n, WellSorted m := by
  cases n with
  | call c as =>
    obtain ⟨hc, has⟩ := (wellSorted_applied rfl).mp h
    exact List.forall_mem_append.mpr ⟨partsIf_sorted hc.sorted, fun m hm => (has m hm).sorted⟩
  | new c as =>
    obtain ⟨hc, has⟩ := (wellSorted_applied rfl).mp h
    exact List.forall_mem_cons.mpr ⟨hc.sorted, fun m hm => (has m hm).sorted⟩
  | binary op l r | sub l r =>
    obtain ⟨hl, hr⟩ := (wellSorted_two rfl).mp h
    exact List.forall_mem_cons.mpr ⟨hl.sorted, List.forall_mem_singleton.mpr hr.sorted⟩
  | unary side op e => exact partsIf_sorted ((wellSorted_one rfl).mp h).sorted
  | assign op t v =>
    obtain ⟨ht, hv⟩ := (wellSorted_two rfl).mp h
    exact List.forall_mem_append.mpr
      ⟨placeParts_sorted ht.sorted, List.forall_mem_singleton.mpr hv.sorted⟩
  | dot b f => exact List.forall_mem_singleton.mpr ((wellSorted_one rfl).mp h).sorted
  | array es => exact fun m hm => ((wellSorted_list rfl).mp h m hm).sorted
  | object ps =>
    exact List.forall_mem_map.mpr fun p hp => ((wellSorted_fields rfl).mp h p hp).sorted
  | _ => exact List.forall_mem_nil _

theorem placeFrom_fits {t : Node} (ht : isTarget t = true)
    (hlen : (placeParts t).length ≤ vs.length) (hvs : ∀ v ∈ vs, Fits .operand v) :
    Fits .target (placeFrom σ t vs) := by
  cases t with
  | name x => exact resolve_fits σ x (.inr rfl)
  | dot b f =>
    match vs, hlen with
    | v :: _, _ => exact ⟨rfl, (wellSorted_one rfl).mpr (hvs v List.mem_cons_self)⟩
  | sub b i =>
    match vs, hlen with
    | v :: w :: _, _ =>
      obtain ⟨hv, hws⟩ := List.forall_mem_cons.mp hvs
      exact ⟨rfl, (wellSorted_two rfl).mpr ⟨hv, hws w List.mem_cons_self⟩⟩
  | _ => cases ht

/-- What a callee or an operand becomes is an expression. -/
theorem fromIf_fits {b : Bool} {c : Node} (hb : b = true → isTarget c = true)
    (hlen : (if b then placeParts c else [c]).length ≤ vs.length)
    (hvs : ∀ v ∈ vs, Fits .operand v) :
    Fits .operand (if b then placeFrom σ c vs else vs.headD c) := by
  cases b with
  | true => exact (placeFrom_fits (hb rfl) hlen hvs).of_target
  | false =>
    match vs, hlen with
    | v :: _, _ => exact hvs v List.mem_cons_self

/-- An expression with other operands is an expression. -/
theorem assemble_fits (h : form n = .combined ∨ form n = .assigned ∨ form n = .called)
    (hlen : vs.length = (parts n).length) (hvs : ∀ v ∈ vs, Fits .operand v) :
    Fits .operand (assemble σ n vs) := by
  cases n with
  | call c as =>
    rw [parts, List.length_append] at hlen
    have hcallee : Fits .operand (calleeFrom σ c vs) :=
      fromIf_fits isTarget_of_isMember (by rw [hlen]; exact Nat.le_add_right _ _) hvs
    exact ⟨rfl, (wellSorted_applied rfl).mpr ⟨hcallee, fun m hm => hvs m (List.mem_of_mem_drop hm)⟩⟩
  | new c as =>
    match vs, hlen with
    | v :: ws, _ => exact ⟨rfl, (wellSorted_applied rfl).mpr (List.forall_mem_cons.mp hvs)⟩
  | binary op l r | sub l r =>
    match vs, hlen with
    | [v, w], _ =>
      obtain ⟨hv, hw⟩ := List.forall_mem_cons.mp hvs
      exact ⟨rfl, (wellSorted_two rfl).mpr ⟨hv, hw w List.mem_cons_self⟩⟩
  | unary side op e =>
    have hoperand : Fits .operand (operandFrom σ op e vs) :=
      fromIf_fits (fun hm => (Bool.and_eq_true_iff.mp hm).2) (Nat.le_of_eq hlen.symm) hvs
    exact ⟨by cases side <;> rfl, (wellSorted_one rfl).mpr hoperand⟩
  | assign op t v =>
    rw [parts, List.length_append, List.length_singleton] at hlen
    have htarget : Fits .target (placeFrom σ t vs) :=
      placeFrom_fits (isTarget_of_form h) (by omega) hvs
    have hvalue : Fits .operand ((vs.drop (placeParts t).length).headD .absent) := by
      rcases hdrop : vs.drop (placeParts t).length with _ | ⟨w, ws⟩
      · have := List.drop_eq_nil_iff.mp hdrop
        omega
      · exact hvs w (List.mem_of_mem_drop (hdrop ▸ List.mem_cons_self))
    exact ⟨rfl, (wellSorted_two rfl).mpr ⟨htarget, hvalue⟩⟩
  | dot b f =>
    match vs, hlen with
    | v :: _, _ => exact ⟨rfl, (wellSorted_one rfl).mpr (hvs v List.mem_cons_self)⟩
  | array es => exact ⟨rfl, (wellSorted_list rfl).mpr hvs⟩
  | object ps =>
    exact ⟨rfl, (wellSorted_fields rfl).mpr fun q hq => hvs q.2 (List.of_mem_zip hq).2⟩
  | _ => rcases h with h | h | h <;> cases h

/-! ## §4. Derivations. -/

/-- The trees that a job walks. -/
def Job.trees : Job → List Node
  | .expr n | .effect n | .stmt n | .region n | .test n | .step n => [n]
  | .operands ns | .stmts ns => ns
  | .bindings ds => ds.map (·.2)

/-- Where the values of a job may stand.  Only a job that may have nothing to walk has none, and
    then nothing was split. -/
def Job.position : Job → Bool → Position
  | .expr _, _ | .operands _, _ | .effect _, _ | _, true => .operand
  | _, false => .optional

theorem Job.position_of_leads {job job' : Job} (h : job.Leads job') {v : Node}
    (hv : Fits (job'.position split) v) : Fits (job.position split) v := by
  cases split with
  | true =>
    have operand : ∀ j : Job, j.position true = .operand := fun j => by cases j <;> rfl
    rw [operand] at hv ⊢
    exact hv
  | false =>
    cases h <;> first | exact hv | exact hv.to_optional

theorem Job.trees_of_leads {job job' : Job} (h : job.Leads job')
    (hs : ∀ m ∈ job.trees, WellSorted m) : ∀ m ∈ job'.trees, WellSorted m := by
  cases h with
  | expression h | region n | step n => exact hs
  | stat e =>
    exact List.forall_mem_singleton.mpr
      ((wellSorted_one rfl).mp (hs _ List.mem_cons_self)).sorted
  | var ds =>
    have hds := (wellSorted_fields rfl).mp (hs _ List.mem_cons_self)
    exact List.forall_mem_map.mpr fun d hd => (hds d hd).sorted
  | block ns | splice ns =>
    exact fun m hm => ((wellSorted_list rfl).mp (hs _ List.mem_cons_self) m hm).sorted

theorem name_fits (x : String) : Fits .target (.name x) := ⟨rfl, wellSorted_of_leaf rfl⟩

theorem isPassed_fits (h : isPassed n = true) (hs : WellSorted n) : Fits .statement n := by
  refine ⟨?_, hs⟩
  cases n <;> first | rfl | cases h

theorem isPassed_tag_ne_test (h : isPassed n = true) : n.tag ≠ "test" := by
  cases n <;> cases h <;> simp [Node.tag, Node.kind?, Kind.tag]

/-- A walk over well-sorted trees makes well-sorted instructions and values. -/
theorem Emits.sorted (hret : Fits .operand env.returnValue)
    (h : Emits env job σ vs split code σ') (hs : ∀ m ∈ job.trees, WellSorted m) :
    (∀ v ∈ vs, Fits (job.position split) v) ∧ SortedAll code := by
  induction h with
  | reference x =>
    exact ⟨List.forall_mem_singleton.mpr (resolve_fits _ x (.inl rfl)), every_nil⟩
  | literal hf =>
    have hn := hs _ List.mem_cons_self
    exact ⟨List.forall_mem_singleton.mpr ⟨isExpression_of_literal hf, hn⟩, every_nil⟩
  | @copied σ n hf =>
    have hn := (rename_sound sorting_sound [] n (hs _ List.mem_cons_self) σ trivial).2.1
    exact ⟨List.forall_mem_singleton.mpr ⟨copy_isExpression hf, hn⟩, every_nil⟩
  | @kept σ _ _ _ _ hf ops ih =>
    obtain ⟨hvs, hcode⟩ := ih (parts_sorted (hs _ List.mem_cons_self))
    have hvalue := assemble_fits (σ := σ) (hf.elim .inl (.inr ∘ .inl)) ops.operands_length hvs
    exact ⟨List.forall_mem_singleton.mpr hvalue, hcode⟩
  | @captured σ _ _ _ _ hf ops ih =>
    obtain ⟨hvs, hcode⟩ := ih (parts_sorted (hs _ List.mem_cons_self))
    have hvalue := assemble_fits (σ := σ) (.inl hf) ops.operands_length hvs
    exact ⟨List.forall_mem_singleton.mpr (name_fits _).of_target,
      every_append.mpr ⟨hcode, sortedAll_set (name_fits _) hvalue⟩⟩
  | @assigned σ σ' op t v vs code ht ops ih =>
    obtain ⟨hvs, hcode⟩ := ih (parts_sorted (hs _ List.mem_cons_self))
    have hform : form (.assign op t v) = .assigned := by rw [form, if_pos ht]
    have hlen := ops.operands_length
    have hvalue := assemble_fits (σ := σ) (.inr (.inl hform)) hlen hvs
    rw [parts, List.length_append] at hlen
    have htarget := placeFrom_fits (σ := σ) ht (by omega) hvs
    exact ⟨List.forall_mem_singleton.mpr htarget.of_target,
      every_append.mpr ⟨hcode, sortedAll_stat hvalue⟩⟩
  | @called σ σ' c args vs split code ops ih =>
    obtain ⟨hvs, hcode⟩ := ih (parts_sorted (hs _ List.mem_cons_self))
    have hform : form (.call c args) = .called := rfl
    have hcall := assemble_fits (σ := σ) (.inr (.inr hform)) ops.operands_length hvs
    have hinstr : SortedAll [callInstr env σ c args vs] :=
      sortedAll_leaf (by decide) ⟨rfl, (wellSorted_one rfl).mpr hcall⟩
    exact ⟨List.forall_mem_singleton.mpr (name_fits _).of_target,
      every_append.mpr ⟨hcode, every_append.mpr ⟨hinstr, sortedAll_set (name_fits _) hret⟩⟩⟩
  | operandsNil => exact ⟨List.forall_mem_nil _, every_nil⟩
  | operandsCons head tail ihHead ihTail =>
    obtain ⟨hn, hns⟩ := List.forall_mem_cons.mp hs
    obtain ⟨hv, hcode⟩ := ihHead (List.forall_mem_singleton.mpr hn)
    obtain ⟨hvs, hcode'⟩ := ihTail hns
    exact ⟨List.forall_mem_cons.mpr ⟨List.forall_mem_singleton.mp hv, hvs⟩,
      every_append.mpr ⟨hcode, hcode'⟩⟩
  | @effect σ σ' n v split code value ih =>
    obtain ⟨hv, hcode⟩ := ih hs
    refine ⟨hv, every_append.mpr ⟨hcode, ?_⟩⟩
    cases split with
    | true => exact every_nil
    | false => exact sortedAll_stat (List.forall_mem_singleton.mp hv)
  | leads hl _ ih =>
    obtain ⟨hvs, hcode⟩ := ih (Job.trees_of_leads hl hs)
    exact ⟨fun v hv => Job.position_of_leads hl (hvs v hv), hcode⟩
  | void hv =>
    refine ⟨List.forall_mem_singleton.mpr ?_, every_nil⟩
    cases hv <;> exact ⟨rfl, wellSorted_of_leaf rfl⟩
  | branch _ _ _ ihCond ihYes ihNo =>
    obtain ⟨hc, hyes, hno⟩ := (wellSorted_three rfl).mp (hs _ List.mem_cons_self)
    obtain ⟨hv, hcode⟩ := ihCond (List.forall_mem_singleton.mpr hc.sorted)
    obtain ⟨-, hyesList⟩ := ihYes (List.forall_mem_singleton.mpr hyes.sorted)
    obtain ⟨-, hnoList⟩ := ihNo (List.forall_mem_singleton.mpr hno.sorted)
    have hcond := List.forall_mem_singleton.mp hv
    refine ⟨List.forall_mem_nil _, every_append.mpr ⟨hcode, every_single.mpr ⟨?_, ?_⟩⟩⟩
    · exact List.forall_mem_singleton.mpr hcond
    · exact every_append.mpr ⟨hyesList, hnoList⟩
  | @test _ _ _ _ split _ _ ih =>
    obtain ⟨hv, hcode⟩ := ih hs
    have hcond : Fits .operand _ := List.forall_mem_singleton.mp hv
    refine ⟨List.forall_mem_singleton.mpr ?_, every_append.mpr ⟨hcode, ?_⟩⟩
    · cases split with
      | true => exact hcond
      | false => exact hcond.to_optional
    · exact every_single.mpr ⟨List.forall_mem_singleton.mpr hcond, every_nil⟩
  | @loop _ _ _ _ _ init cond step body c e is bs _ condSplit stepSplit _ _ _ _ _ _ _ _ _
      ihInit ihTest ihStep ihBody =>
    obtain ⟨hinit, hcond, hstep, hbody⟩ := (wellSorted_four rfl).mp (hs _ List.mem_cons_self)
    obtain ⟨-, hinitList⟩ := ihInit (List.forall_mem_singleton.mpr hinit.sorted)
    obtain ⟨hc, htestList⟩ := ihTest (List.forall_mem_singleton.mpr hcond.sorted)
    obtain ⟨he, hstepList⟩ := ihStep (List.forall_mem_singleton.mpr hstep.sorted)
    obtain ⟨-, hbodyList⟩ := ihBody (List.forall_mem_singleton.mpr hbody.sorted)
    refine ⟨List.forall_mem_nil _, every_append.mpr ⟨hinitList, every_single.mpr ⟨?_, ?_⟩⟩⟩
    · refine List.forall_mem_cons.mpr ⟨?_, List.forall_mem_singleton.mpr ?_⟩
      · have hc := List.forall_mem_singleton.mp hc
        cases condSplit <;> exact hc
      · have he := List.forall_mem_singleton.mp he
        cases stepSplit with
        | true => exact ⟨rfl, wellSorted_of_leaf rfl⟩
        | false => exact he
    · exact every_append.mpr ⟨every_append.mpr ⟨htestList, hstepList⟩, hbodyList⟩
  | declaration _ ih =>
    have hbody := (wellSorted_list rfl).mp (hs _ List.mem_cons_self)
    obtain ⟨-, hlist⟩ := ih fun m hm => (hbody m hm).sorted
    exact ⟨List.forall_mem_nil _, every_single.mpr ⟨List.forall_mem_nil _, hlist⟩⟩
  | passed hp =>
    have hn := isPassed_fits hp (hs _ List.mem_cons_self)
    exact ⟨List.forall_mem_nil _, sortedAll_leaf (isPassed_tag_ne_test hp) (copy_fits rfl hn)⟩
  | stmtsNil | bindingsNil => exact ⟨List.forall_mem_nil _, every_nil⟩
  | stmtsCons _ _ ihHead ihTail =>
    obtain ⟨hn, hns⟩ := List.forall_mem_cons.mp hs
    obtain ⟨-, hcode⟩ := ihHead (List.forall_mem_singleton.mpr hn)
    obtain ⟨-, hcode'⟩ := ihTail hns
    exact ⟨List.forall_mem_nil _, every_append.mpr ⟨hcode, hcode'⟩⟩
  | @bare σ _ x _ _ _ _ _ ih =>
    obtain ⟨-, hcode⟩ := ih (List.forall_mem_cons.mp hs).2
    have hset := sortedAll_set (field_fits σ x (.inr rfl))
      (show Fits .operand .null from ⟨rfl, wellSorted_of_leaf rfl⟩)
    exact ⟨List.forall_mem_nil _, hset.cons hcode⟩
  | @bound σ _ _ x _ v _ _ split _ _ _ _ _ ihValue ihRest =>
    obtain ⟨hinit, hds⟩ := List.forall_mem_cons.mp hs
    obtain ⟨hv, hcode⟩ := ihValue (List.forall_mem_singleton.mpr hinit)
    obtain ⟨-, hcode'⟩ := ihRest hds
    have hfield := field_fits σ x (p := .target) (.inr rfl)
    have hset := sortedAll_set hfield (List.forall_mem_singleton.mp hv)
    have hmark : SortedAll (placeholder split (σ.field x)) := by
      cases split with
      | true => exact sortedAll_set hfield ⟨rfl, wellSorted_of_leaf rfl⟩
      | false => exact every_nil
    exact ⟨List.forall_mem_nil _,
      every_append.mpr ⟨every_append.mpr ⟨hmark, hcode⟩, hset.cons hcode'⟩⟩

end Walk

end Resumable.Program
