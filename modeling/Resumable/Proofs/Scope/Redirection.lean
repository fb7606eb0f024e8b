/-
  Resumable.Proofs.Scope.Redirection — which names are read from the container.

  The invariant of a derivation says that its scope stays near the beginning and that the uses of
  names in its code and values are accounted for, given that its source does not mention the
  container.  Names are taken from the source one by one, so an expression put together from
  accounted values is accounted for as well (`assemble_accounted`).  Only captures use other names:
  those in the path that return values are read from.

  A name is redirected only if a `var` outside function literals binds it and no function literal
  around it does (`transform_redirects_outer`).  Nothing else hides a name: the parameters of a
  function declaration and the name of a catch clause do not (`transform_ignores_parameters`).
-/
import Resumable.Proofs.Meaning.Values
import Resumable.Proofs.Scope.Copying

namespace Resumable.Program

namespace Walk

/-! ## §1. Sources. -/

/-- The uses of names in what is walked. -/
def Job.references (c : String) : Job → List Reference
  | .expr n | .effect n | .stmt n | .region n | .test n | .step n => n.references c []
  | .operands ns | .stmts ns => Node.referencesAll c [] ns
  | .bindings ds => Node.referencesBindings c [] ds

theorem Job.Leads.references {c : String} {job job' : Job} (h : job.Leads job') :
    job.references c = job'.references c := by
  cases h <;> simp [Job.references, Node.references]

section

variable {env : Surface} {S : Setting} {R : String → Prop} {job : Job} {σ σ' : Scope}
  {n t : Node} {vs : List Node} {split : Bool} {code : List Instr}

theorem source_place (h : ∀ r ∈ t.references S.container [], S.SourceOf R r) :
    ∀ r ∈ Node.referencesAll S.container [] (placeParts t), S.SourceOf R r := by
  cases t with
  | dot b f =>
    rw [Node.references] at h
    split at h
    · exact (List.forall_mem_singleton.mp h).elim
    · simpa [placeParts, Node.referencesAll] using (List.forall_mem_cons.mp h).2
  | sub b i => simpa [placeParts, Node.referencesAll, Node.references] using h
  | _ => simp [placeParts, Node.referencesAll]

theorem source_self (h : ∀ r ∈ t.references S.container [], S.SourceOf R r) :
    ∀ r ∈ Node.referencesAll S.container [] [t], S.SourceOf R r := by
  simpa [Node.referencesAll] using h

/-- The operands of an expression use no other names than the expression. -/
theorem source_parts (h : ∀ r ∈ n.references S.container [], S.SourceOf R r) :
    ∀ r ∈ Node.referencesAll S.container [] (parts n), S.SourceOf R r := by
  cases n with
  | call c args =>
    rw [Node.references, List.forall_mem_append] at h
    rw [parts, calleeParts, Node.referencesAll_append, List.forall_mem_append]
    refine ⟨?_, h.2⟩
    split
    · exact source_place h.1
    · exact source_self h.1
  | unary side op e =>
    rw [Node.references] at h
    rw [parts, operandParts]
    split
    · exact source_place h
    · exact source_self h
  | assign op t v =>
    rw [Node.references, List.forall_mem_append] at h
    rw [parts, Node.referencesAll_append, List.forall_mem_append]
    exact ⟨source_place h.1, source_self h.2⟩
  | dot b f => exact source_place h
  | object ps =>
    rw [Node.references, Node.referencesFields_eq] at h
    rw [parts, Node.referencesAll_eq]
    exact h
  | new c args | binary op l r | sub b i | array es =>
    simpa [parts, Node.references, Node.referencesAll] using h
  | _ => simp [parts, Node.referencesAll]

/-! ## §2. Values. -/

/-- The uses of names in a list of values, value by value. -/
theorem accounted_all {vs : List Node} :
    (∀ r ∈ Node.referencesAll S.container [] vs, S.AccountedOf R r) ↔
      ∀ v ∈ vs, ∀ r ∈ v.references S.container [], S.AccountedOf R r := by
  rw [Node.referencesAll_eq]
  simp only [List.mem_flatMap, forall_exists_index, and_imp]
  exact ⟨fun h v hv r hr => h r v hv hr, fun h r v hv hr => h v hv r hr⟩

theorem placeFrom_accounted (hσ : S.Near σ) (ht : isTarget t = true)
    (hlen : (placeParts t).length ≤ vs.length)
    (hsrc : ∀ r ∈ t.references S.container [], S.SourceOf R r)
    (hvs : ∀ v ∈ vs, ∀ r ∈ v.references S.container [], S.AccountedOf R r) :
    ∀ r ∈ (placeFrom σ t vs).references S.container [], S.AccountedOf R r := by
  cases t with
  | name x =>
    rw [Node.references, List.forall_mem_singleton] at hsrc
    exact hσ.resolve_accounted hsrc (by simp)
  | dot b f =>
    match vs with
    | [] => simp [placeParts] at hlen
    | v :: _ =>
      exact Setting.dot_accounted (Setting.accessed_of_source hsrc) (hvs v List.mem_cons_self)
  | sub b i =>
    match vs with
    | [] | [_] => simp [placeParts] at hlen
    | v :: w :: _ =>
      rw [placeFrom, Node.references, List.forall_mem_append]
      exact ⟨hvs v (by simp), hvs w (by simp)⟩
  | _ => cases ht

theorem calleeFrom_accounted {c : Node} (hσ : S.Near σ) (hlen : (calleeParts c).length ≤ vs.length)
    (hsrc : ∀ r ∈ c.references S.container [], S.SourceOf R r)
    (hvs : ∀ v ∈ vs, ∀ r ∈ v.references S.container [], S.AccountedOf R r) :
    ∀ r ∈ (calleeFrom σ c vs).references S.container [], S.AccountedOf R r := by
  unfold calleeFrom calleeParts at *
  split
  · next hc =>
    have ht : isTarget c = true := by cases c <;> cases hc <;> rfl
    rw [if_pos hc] at hlen
    exact placeFrom_accounted hσ ht hlen hsrc hvs
  · next hc =>
    rw [if_neg hc] at hlen
    match vs with
    | [] => simp at hlen
    | v :: _ => exact hvs v List.mem_cons_self

theorem operandFrom_accounted {op : String} {e : Node} (hσ : S.Near σ)
    (hlen : vs.length = (operandParts op e).length)
    (hsrc : ∀ r ∈ e.references S.container [], S.SourceOf R r)
    (hvs : ∀ v ∈ vs, ∀ r ∈ v.references S.container [], S.AccountedOf R r) :
    ∀ r ∈ (operandFrom σ op e vs).references S.container [], S.AccountedOf R r := by
  unfold operandFrom operandParts at *
  split
  · next he =>
    rw [if_pos he] at hlen
    exact placeFrom_accounted hσ (Bool.and_eq_true_iff.mp he).2 (by omega) hsrc hvs
  · next he =>
    rw [if_neg he] at hlen
    match vs with
    | [v] => exact hvs v List.mem_cons_self

/-- An expression put together from values adds at most the names it is applied to. -/
theorem assemble_accounted (hσ : S.Near σ)
    (hf : form n = .combined ∨ form n = .assigned ∨ form n = .called)
    (hlen : vs.length = (parts n).length)
    (hsrc : ∀ r ∈ n.references S.container [], S.SourceOf R r)
    (hvs : ∀ v ∈ vs, ∀ r ∈ v.references S.container [], S.AccountedOf R r) :
    ∀ r ∈ (assemble σ n vs).references S.container [], S.AccountedOf R r := by
  cases n with
  | call c args =>
    rw [Node.references, List.forall_mem_append] at hsrc
    rw [parts, List.length_append] at hlen
    rw [assemble, Node.references, List.forall_mem_append]
    refine ⟨calleeFrom_accounted hσ (by omega) hsrc.1 hvs, accounted_all.mpr fun v hv => ?_⟩
    exact hvs v (List.mem_of_mem_drop hv)
  | unary side op e =>
    rw [Node.references] at hsrc
    rw [assemble, Node.references]
    exact operandFrom_accounted hσ hlen hsrc hvs
  | assign op t v =>
    have ht := isTarget_of_form hf
    rw [Node.references, List.forall_mem_append] at hsrc
    rw [parts, List.length_append, List.length_singleton] at hlen
    obtain ⟨w, hw⟩ : ∃ w, vs.drop (placeParts t).length = [w] := by
      rw [← List.length_eq_one_iff, List.length_drop]
      omega
    rw [assemble, Node.references, List.forall_mem_append, hw, List.headD_cons]
    refine ⟨placeFrom_accounted hσ ht (by omega) hsrc.1 hvs, hvs w ?_⟩
    exact List.mem_of_mem_drop (hw ▸ List.mem_cons_self)
  | dot b f =>
    match vs with
    | [] => simp [parts] at hlen
    | v :: _ =>
      exact Setting.dot_accounted (Setting.accessed_of_source hsrc) (hvs v List.mem_cons_self)
  | array es =>
    rw [assemble, Node.references]
    exact accounted_all.mpr hvs
  | object ps =>
    rw [parts, List.length_map] at hlen
    have hsnd : ((ps.map (·.1)).zip vs).map (·.2) = vs := List.map_snd_zip (by simp [hlen])
    rw [assemble, Node.references, Node.referencesFields_eq, hsnd, ← Node.referencesAll_eq]
    exact accounted_all.mpr hvs
  | new c args =>
    match vs with
    | [] => simp [parts] at hlen
    | v :: ws =>
      rw [List.forall_mem_cons] at hvs
      rw [assemble, Node.references, List.forall_mem_append]
      exact ⟨hvs.1, accounted_all.mpr hvs.2⟩
  | binary op l r | sub b i =>
    match vs with
    | [] | [_] => simp [parts] at hlen
    | v :: w :: _ =>
      rw [assemble, Node.references, List.forall_mem_append]
      exact ⟨hvs v (by simp), hvs w (by simp)⟩
  | _ => rcases hf with hf | hf | hf <;> cases hf

/-! ## §3. Derivations. -/

theorem references_set (c : String) (target value : Node) :
    (Instr.set target value).references c = target.references c [] ++ value.references c [] := by
  simp [Instr.set, Instr.stat, Instr.references, Node.references]

theorem references_stat (c : String) (e : Node) :
    (Instr.stat e).references c = e.references c [] := by
  simp [Instr.stat, Instr.references, Node.references]

theorem temp_accounted (hσ : S.Near σ) {k : Nat} (hk : k < S.temps) :
    ∀ r ∈ (Node.name (σ.temp k)).references S.container [], S.AccountedOf R r := by
  rw [Node.references, List.forall_mem_singleton]
  exact .inl (hσ.isTemp hk)

theorem regionTemp_accounted (hσ : S.Near σ) (htemps : σ.temps ≤ S.temps) (split : Bool) :
    ∀ r ∈ Instr.tempReferences (regionTemp split σ), S.AccountedOf R r := by
  unfold regionTemp Scope.lastTemp?
  cases split with
  | false => simp [Instr.tempReferences]
  | true =>
    cases hk : σ.temps with
    | zero => simp [Instr.tempReferences]
    | succ k => exact List.forall_mem_singleton.mpr (.inl (hσ.isTemp (by omega)))

/-- A use of a name in the code of a walk. -/
def Explains (S : Setting) (R : String → Prop) (env : Surface) (r : Reference) : Prop :=
  r ∈ env.returnValue.references S.container [] ∨ S.AccountedOf R r

/-- Where a walk ends, and the names that its code and its values use. -/
structure Explained (S : Setting) (R : String → Prop) (env : Surface) (σ' : Scope) (vs : List Node)
    (code : List Instr) : Prop where
  near : S.Near σ'
  code : ∀ r ∈ Instr.referencesAll S.container code, Explains S R env r
  values : ∀ v ∈ vs, ∀ r ∈ v.references S.container [], S.AccountedOf R r

/-- One more instruction. -/
theorem explains_append {xs ys : List Instr}
    (hx : ∀ r ∈ Instr.referencesAll S.container xs, Explains S R env r)
    (hy : ∀ r ∈ Instr.referencesAll S.container ys, Explains S R env r) :
    ∀ r ∈ Instr.referencesAll S.container (xs ++ ys), Explains S R env r := by
  rw [Instr.referencesAll_append, List.forall_mem_append]
  exact ⟨hx, hy⟩

theorem explains_single {i : Instr} (h : ∀ r ∈ i.references S.container, Explains S R env r) :
    ∀ r ∈ Instr.referencesAll S.container [i], Explains S R env r := by
  simpa [Instr.referencesAll] using h

theorem explains_of_accounted {rs : List Reference} (h : ∀ r ∈ rs, S.AccountedOf R r) :
    ∀ r ∈ rs, Explains S R env r := fun r hr => .inr (h r hr)

theorem explains_set {target value : Node}
    (ht : ∀ r ∈ target.references S.container [], S.AccountedOf R r)
    (hv : ∀ r ∈ value.references S.container [], Explains S R env r) :
    ∀ r ∈ Instr.referencesAll S.container [.set target value], Explains S R env r := by
  refine explains_single ?_
  rw [references_set, List.forall_mem_append]
  exact ⟨explains_of_accounted ht, hv⟩

theorem copy_explained (hσ : S.Near σ) (h : ∀ r ∈ n.references S.container [], S.SourceOf R r) :
    S.Near (copyScope σ n) ∧ ∀ r ∈ (copy σ n).references S.container [], S.AccountedOf R r := by
  obtain ⟨hnear, hcopy⟩ := rename_sound (S.copying_sound R) [] n h σ hσ
  exact ⟨hnear, hcopy.references⟩

/-- A walk accounts for every name it uses. -/
theorem Emits.explained (h : Emits env job σ vs split code σ') :
    S.Near σ → (∀ r ∈ job.references S.container, S.SourceOf R r) → σ'.temps ≤ S.temps →
      Explained S R env σ' vs code := by
  induction h with
  | reference x =>
    intro hσ hsrc _
    simp only [Job.references, Node.references, List.forall_mem_singleton] at hsrc
    refine ⟨hσ, by simp [Instr.referencesAll], List.forall_mem_singleton.mpr ?_⟩
    exact hσ.resolve_accounted hsrc (by simp)
  | @literal σ n hf =>
    intro hσ _ _
    refine ⟨hσ, by simp [Instr.referencesAll], List.forall_mem_singleton.mpr ?_⟩
    cases n with
    | num _ | string _ | atom _ | regexp _ _ => simp [Node.references]
    | assign op t v =>
      simp only [form] at hf
      split at hf <;> cases hf
    | _ => cases hf
  | copied hf =>
    intro hσ hsrc _
    obtain ⟨hnear, hcopy⟩ := copy_explained hσ hsrc
    exact ⟨hnear, by simp [Instr.referencesAll], List.forall_mem_singleton.mpr hcopy⟩
  | kept hf ops ih =>
    intro hσ hsrc htemps
    obtain ⟨hnear, hcode, hvs⟩ := ih hσ (source_parts hsrc) htemps
    refine ⟨hnear, hcode, List.forall_mem_singleton.mpr ?_⟩
    exact assemble_accounted hσ (hf.elim .inl (.inr ∘ .inl)) ops.operands_length hsrc hvs
  | @captured σ σ' n vs code hf ops ih =>
    intro hσ hsrc htemps
    obtain ⟨hnear, hcode, hvs⟩ := ih hσ (source_parts hsrc) (Nat.le_of_succ_le htemps)
    have hvalue := assemble_accounted hσ (.inl hf) ops.operands_length hsrc hvs
    have htemp := temp_accounted (R := R) hnear htemps
    refine ⟨hnear.nextTemp, explains_append hcode ?_, List.forall_mem_singleton.mpr htemp⟩
    exact explains_set htemp (explains_of_accounted hvalue)
  | @assigned σ σ' op t v vs code ht ops ih =>
    intro hσ hsrc htemps
    obtain ⟨hnear, hcode, hvs⟩ := ih hσ (source_parts hsrc) htemps
    have hlen := ops.operands_length
    have hf : form (.assign op t v) = .assigned := if_pos ht
    have hvalue := assemble_accounted hσ (.inr (.inl hf)) hlen hsrc hvs
    have htarget : ∀ r ∈ t.references S.container [], S.SourceOf R r := by
      simp only [Job.references, Node.references, List.forall_mem_append] at hsrc
      exact hsrc.1
    refine ⟨hnear, explains_append hcode (explains_single ?_), List.forall_mem_singleton.mpr ?_⟩
    · rw [references_stat]
      exact explains_of_accounted hvalue
    · refine placeFrom_accounted hσ ht ?_ htarget hvs
      rw [hlen, parts, List.length_append]
      omega
  | @called σ σ' c args vs split code ops ih =>
    intro hσ hsrc htemps
    obtain ⟨hnear, hcode, hvs⟩ := ih hσ (source_parts hsrc) (Nat.le_of_succ_le htemps)
    have hcall := assemble_accounted hσ (.inr (.inr rfl)) ops.operands_length hsrc hvs
    have htemp := temp_accounted (R := R) hnear htemps
    refine ⟨hnear.nextTemp, explains_append hcode ?_, List.forall_mem_singleton.mpr htemp⟩
    rw [Instr.referencesAll, List.forall_mem_append]
    refine ⟨explains_of_accounted ?_, explains_set htemp fun r hr => .inl hr⟩
    simpa [callInstr, Instr.references, Node.references] using hcall
  | operandsNil =>
    intro hσ _ _
    exact ⟨hσ, by simp [Instr.referencesAll], by simp⟩
  | operandsCons _ tail ih ih' =>
    intro hσ hsrc htemps
    rw [Job.references, Node.referencesAll, List.forall_mem_append] at hsrc
    obtain ⟨hnear, hcode, hv⟩ := ih hσ hsrc.1 (Nat.le_trans tail.grows.temps htemps)
    obtain ⟨hnear', hcode', hvs⟩ := ih' hnear hsrc.2 htemps
    exact ⟨hnear', explains_append hcode hcode',
      List.forall_mem_cons.mpr ⟨List.forall_mem_singleton.mp hv, hvs⟩⟩
  | @effect σ σ' n v split code value ih =>
    intro hσ hsrc htemps
    obtain ⟨hnear, hcode, hv⟩ := ih hσ hsrc htemps
    refine ⟨hnear, explains_append hcode ?_, hv⟩
    cases split with
    | true => simp [unsplitStat, Instr.referencesAll]
    | false =>
      refine explains_single ?_
      rw [references_stat]
      exact explains_of_accounted (List.forall_mem_singleton.mp hv)
  | leads hl _ ih =>
    intro hσ hsrc htemps
    rw [hl.references] at hsrc
    exact ih hσ hsrc htemps
  | void hv =>
    intro hσ _ _
    exact ⟨hσ, by simp [Instr.referencesAll], by simp [Node.references]⟩
  | branch cond yesDone noDone ih ih₁ ih₂ =>
    intro hσ hsrc htemps
    rw [Job.references, Node.references, List.forall_mem_append, List.forall_mem_append] at hsrc
    obtain ⟨⟨hc, hy⟩, hn⟩ := hsrc
    have htemps₁ := Nat.le_trans noDone.grows.temps htemps
    obtain ⟨hnear, hcode, hv⟩ := ih hσ hc (Nat.le_trans yesDone.grows.temps htemps₁)
    obtain ⟨hnear₁, hyes, -⟩ := ih₁ hnear hy htemps₁
    obtain ⟨hnear₂, hno, -⟩ := ih₂ hnear₁ hn htemps
    refine ⟨hnear₂, explains_append hcode (explains_single ?_), by simp⟩
    have hcond := List.forall_mem_singleton.mp hv
    simp only [Instr.references, List.forall_mem_append]
    exact ⟨⟨explains_of_accounted hcond, hyes,
      explains_of_accounted (regionTemp_accounted hnear₁ htemps₁ _)⟩, hno,
      explains_of_accounted (regionTemp_accounted hnear₂ htemps _)⟩
  | test value ih =>
    intro hσ hsrc htemps
    obtain ⟨hnear, hcode, hv⟩ := ih hσ hsrc htemps
    refine ⟨hnear, explains_append hcode (explains_single ?_), hv⟩
    rw [Instr.references]
    exact explains_of_accounted (List.forall_mem_singleton.mp hv)
  | @loop _ _ _ _ _ init cond step body c e _ _ _ _ stepSplit _ _ _ _ _ initDone testDone stepDone
      bodyDone ih ih₁ ih₂ ih₃ =>
    intro hσ hsrc htemps
    rw [Job.references, Node.references, List.forall_mem_append, List.forall_mem_append,
      List.forall_mem_append] at hsrc
    obtain ⟨⟨⟨hi, hc⟩, hs⟩, hb⟩ := hsrc
    have htemps₂ := Nat.le_trans bodyDone.grows.temps htemps
    have htemps₁ := Nat.le_trans stepDone.grows.temps htemps₂
    obtain ⟨hnear, hinit, -⟩ := ih hσ hi (Nat.le_trans testDone.grows.temps htemps₁)
    obtain ⟨hnear₁, htest, hv⟩ := ih₁ hnear hc htemps₁
    obtain ⟨hnear₂, hstep, he⟩ := ih₂ hnear₁ hs htemps₂
    obtain ⟨hnear₃, hbody, -⟩ := ih₃ hnear₂ hb htemps
    refine ⟨hnear₃, explains_append hinit (explains_single ?_), by simp⟩
    have hcond := List.forall_mem_singleton.mp hv
    simp only [Instr.references, List.forall_mem_append]
    refine ⟨⟨⟨⟨explains_of_accounted hcond, htest⟩, hstep⟩, hbody⟩, explains_of_accounted ?_⟩
    cases stepSplit with
    | true => simp [Node.references]
    | false => exact List.forall_mem_singleton.mp he
  | declaration _ ih =>
    intro hσ hsrc htemps
    rw [Job.references, Node.references] at hsrc
    obtain ⟨hnear, hbody, -⟩ := ih hσ hsrc htemps
    refine ⟨hnear, explains_single ?_, by simp⟩
    rw [Instr.references]
    exact hbody
  | passed hp =>
    intro hσ hsrc _
    obtain ⟨hnear, hcopy⟩ := copy_explained hσ hsrc
    refine ⟨hnear, explains_single ?_, by simp⟩
    rw [Instr.references]
    exact explains_of_accounted hcopy
  | stmtsNil | bindingsNil =>
    intro hσ _ _
    exact ⟨hσ, by simp [Instr.referencesAll], by simp⟩
  | stmtsCons _ tail ih ih' =>
    intro hσ hsrc htemps
    rw [Job.references, Node.referencesAll, List.forall_mem_append] at hsrc
    obtain ⟨hnear, hcode, -⟩ := ih hσ hsrc.1 (Nat.le_trans tail.grows.temps htemps)
    obtain ⟨hnear', hcode', -⟩ := ih' hnear hsrc.2 htemps
    exact ⟨hnear', explains_append hcode hcode', by simp⟩
  | @bare σ σ' x ds vs split code rest ih =>
    intro hσ hsrc htemps
    -- a binding that is walked stands outside function literals, so it may declare its name
    rw [Job.references, Node.referencesBindings, List.forall_mem_cons, List.forall_mem_append]
      at hsrc
    have hfresh : S.fresh x ∧ R x := hsrc.1 rfl
    obtain ⟨hnear, hcode, -⟩ := ih (hσ.declare hfresh.1) hsrc.2.2 htemps
    refine ⟨hnear, explains_append (explains_set (hσ.outer_field hfresh) ?_) hcode, by simp⟩
    simp [Node.null, Node.references]
  | @bound σ σ₁ σ₂ x init v ds vs split split' code code' value rest ih ih' =>
    intro hσ hsrc htemps
    rw [Job.references, Node.referencesBindings, List.forall_mem_cons, List.forall_mem_append]
      at hsrc
    have hfresh : S.fresh x ∧ R x := hsrc.1 rfl
    have hfield := hσ.outer_field hfresh
    obtain ⟨hnear, hcode, hv⟩ :=
      ih (hσ.declare hfresh.1) hsrc.2.1 (Nat.le_trans rest.grows.temps htemps)
    obtain ⟨hnear', hcode', -⟩ := ih' hnear hsrc.2.2 htemps
    have hfront : ∀ r ∈ Instr.referencesAll S.container (placeholder split (σ.field x)),
        Explains S R env r := by
      cases split with
      | false => simp [placeholder, Instr.referencesAll]
      | true => exact explains_set hfield (by simp [Node.null, Node.references])
    have hvalue : ∀ r ∈ v.references S.container [], Explains S R env r :=
      explains_of_accounted (List.forall_mem_singleton.mp hv)
    exact ⟨hnear', explains_append (explains_append hfront hcode)
      (explains_append (explains_set hfield hvalue) hcode'), by simp⟩

end

end Walk

/-! ## §4. Units. -/

/-- A field that a program reads from the container though it is no declared name: the one that the
    path of return values goes on with behind the container, or, if the container is called like one
    of the temps, a member that the source accesses. -/
def Naming.OwnMember (naming : Naming) (temps : Nat) (source : List Reference) (x : String) :
    Prop :=
  [naming.container, x] <+: Meaning.slot naming ∨
    (∃ k < temps, naming.container = Meaning.temp naming k) ∧
      ∃ r ∈ source, r.use = .member ∧ r.name = x

/-- What is known about names before the walk of a source, for which the names of a body are
    declared. -/
def Naming.setting (naming : Naming) (body : List Node) (temps : Nat) (source : List Reference)
    (fresh : String → Prop) : Setting :=
  { container := naming.container
    stem := naming.stem
    temps
    accessed := fun x => ∃ r ∈ source, r.use = .member ∧ r.name = x
    base := (naming.scope body).names
    fresh }

section

variable {naming : Naming} {isAsync : String → Bool} {body : List Node} {t : Transformed}
  {fresh : String → Prop}

theorem Naming.near_scope (naming : Naming) (body : List Node) (temps : Nat)
    (source : List Reference) (fresh : String → Prop) :
    (naming.setting body temps source fresh).Near (naming.scope body) := by
  have hgrows := (naming.declares_scope body).toGrows
  refine ⟨hgrows.container, hgrows.stem, List.prefix_refl _, fun x hx => .inl hx, ?_⟩
  exact Setting.nodup_declareAll List.nodup_nil _

/-- The path of return values uses its root, or the first field if the root is the container. -/
theorem Naming.dotted_references (naming : Naming) :
    ∀ r ∈ (Naming.dotted naming.returnValue).references naming.container [],
      r.InPath naming.container (Meaning.slot naming) := by
  -- only a path of one part is a name
  refine (dotted_of (P := fun xs n => (∀ y, n = .name y → xs = [y]) ∧
    ∀ r ∈ n.references naming.container [], r.InPath naming.container xs) _ ?name ?dot).2
  case name =>
    intro x
    rw [Node.references, List.forall_mem_singleton]
    exact ⟨fun y h => by cases h; rfl, rfl⟩
  case dot =>
    intro x xs n f h
    obtain ⟨hname, hn⟩ := h
    refine ⟨fun y heq => (by cases heq), ?_⟩
    rw [Node.references]
    split
    · next hc =>
      rw [List.forall_mem_singleton, hname _ (Node.eq_name_of_isNamed hc)]
      exact List.prefix_refl _
    · exact List.forall_mem_cons.mpr ⟨trivial, fun r hr => (hn r hr).append f⟩

/-- The names that a transformed unit uses are those of the path of return values or accounted
    for. -/
theorem transform_explained (h : (transform naming isAsync (.toplevel body)).1 = .ok t)
    {S : Setting}
    (hS : S = naming.setting body t.stats.temps (Node.referencesAll naming.container [] body) fresh)
    (hsrc : ∀ r ∈ Node.referencesAll naming.container [] body, S.Source r) :
    (∃ σ, t.locals = σ.names ∧ S.Near σ) ∧
      ∀ r ∈ Instr.referencesAll naming.container t.program ++
        t.tree.references naming.container [],
          r.InPath naming.container (Meaning.slot naming) ∨ S.Accounted r := by
  subst hS
  obtain ⟨body', σ, heq, hd⟩ := transform_emits h
  cases heq
  obtain ⟨vs, split, he⟩ := hd.emits
  have htemps : σ.temps ≤ t.stats.temps := Nat.le_of_eq (by rw [hd.stats])
  obtain ⟨hnear, hall, -⟩ := he.explained (naming.near_scope body _ _ fresh)
    (fun r hr => Setting.sourceOf_all.mpr (hsrc r hr)) htemps
  have hcode : ∀ r ∈ Instr.referencesAll naming.container t.program,
      r.InPath naming.container (Meaning.slot naming) ∨ Setting.Accounted _ r :=
    fun r hr => (hall r hr).imp (naming.dotted_references r) Setting.accountedOf_all.mp
  refine ⟨⟨σ, hd.locals, hnear⟩, List.forall_mem_append.mpr ⟨hcode, fun r hr => ?_⟩⟩
  -- the tree is made of the program, and uses no other names
  rw [transform_tree h] at hr
  exact hcode r (references_tree t.program hr)

/-- The names known before a walk are those of `var` bindings. -/
theorem mem_outerNames_of_scope {x : String} (h : x ∈ (naming.scope body).names) :
    x ∈ Reference.outerNames (Node.referencesAll naming.container [] body) := by
  rcases Scope.mem_declareAll.mp h with h | h
  · cases h
  · exact Reference.mem_outerNames.mpr (Node.binding_of_varsAll body h)

end

/-- Only names that a `var` outside function literals binds are redirected, and only where no
    function literal around them binds them.  Whatever else looks like a field of the container is a
    member of the program's own. -/
theorem transform_redirects_outer (naming : Naming) (isAsync : String → Bool) (body : List Node)
    (t : Transformed) (h : (transform naming isAsync (.toplevel body)).1 = .ok t)
    (hclear : ∀ r ∈ Node.referencesAll naming.container [] body,
      r.use ≠ .redirected ∧ (r.use = .bare → r.name ≠ naming.container)) :
    ∀ r ∈ Instr.referencesAll naming.container t.program ++
        t.tree.references naming.container [],
      r.use = .redirected →
        naming.OwnMember t.stats.temps (Node.referencesAll naming.container [] body) r.name ∨
          r.name ∈ Reference.outerNames (Node.referencesAll naming.container [] body) ∧
            ¬ r.Hidden := by
  -- what the walk may declare is what is bound outside function literals anyway
  let outer := Reference.outerNames (Node.referencesAll naming.container [] body)
  have hsrc : ∀ r ∈ Node.referencesAll naming.container [] body,
      (naming.setting body t.stats.temps (Node.referencesAll naming.container [] body)
        (· ∈ outer)).Source r := by
    intro r hr
    obtain ⟨hno, hbare⟩ := hclear r hr
    obtain ⟨x, use, around⟩ := r
    cases use with
    | bare => exact hbare rfl
    | redirected => exact hno rfl
    | member => exact ⟨_, hr, rfl, rfl⟩
    | binding =>
      intro ha
      cases (show around = [] from ha)
      exact Reference.mem_outerNames.mpr hr
  intro r hr huse
  rcases (transform_explained h rfl hsrc).2 r hr with hpath | hacc
  · rw [Reference.InPath, huse] at hpath
    exact .inl (.inl hpath)
  · rw [Setting.Accounted, huse] at hacc
    rcases hacc with hown | ⟨hknown, hopen⟩
    · exact .inl (.inr hown)
    · exact .inr ⟨hknown.elim mem_outerNames_of_scope id, hopen⟩

/-- A function literal that has a declared name as a parameter, beside a use outside of it:
    `var x = 1; g = function (x) { return x; }; f(x);`. -/
theorem transform_redirects_outer_of_literal :
    let body : List Node := [.var [("x", .num "1")],
      .stat (.assign "" (.name "g") (.function "" ["x"] [.ret (.name "x")])),
      .stat (.call (.name "f") [.name "x"])]
    ∃ t, (transform {} (fun _ => false) (.toplevel body)).1 = .ok t ∧
      (∀ r ∈ Node.referencesAll "$$locals" [] body,
        r.use ≠ .redirected ∧ (r.use = .bare → r.name ≠ "$$locals")) ∧
      ∀ r ∈ Instr.referencesAll "$$locals" t.program ++ t.tree.references "$$locals" [],
        r.use = .redirected →
          Naming.OwnMember {} t.stats.temps (Node.referencesAll "$$locals" [] body) r.name ∨
            r.name ∈ Reference.outerNames (Node.referencesAll "$$locals" [] body) ∧
              ¬ r.Hidden := by
  intro body
  obtain ⟨t, ht⟩ : ∃ t, (transform {} (fun _ => false) (.toplevel body)).1 = .ok t :=
    exists_of_isOk (by decide +kernel)
  have hclear : ∀ r ∈ Node.referencesAll "$$locals" [] body,
      r.use ≠ .redirected ∧ (r.use = .bare → r.name ≠ "$$locals") := by decide
  exact ⟨t, ht, hclear, transform_redirects_outer {} (fun _ => false) body t ht hclear⟩

/-- Whether an instruction declares a function with a body of a kind. -/
def Instr.declares (f : String) (ps : List String) (p : List Instr → Bool) : Instr → Bool
  | .defun g qs body => g == f && qs == ps && p body
  | _ => false

theorem Instr.exists_of_declares {f : String} {ps : List String} {p : List Instr → Bool} {i : Instr}
    (h : i.declares f ps p = true) : ∃ body, i = .defun f ps body ∧ p body = true := by
  cases i with
  | defun g qs body =>
    simp only [declares, Bool.and_eq_true, beq_iff_eq] at h
    obtain ⟨⟨rfl, rfl⟩, hp⟩ := h
    exact ⟨body, rfl, hp⟩
  | _ => cases h

/-- Whether an instruction is a statement with a catch clause of a kind. -/
def Instr.catches (x : String) (p : List Node → Bool) : Instr → Bool
  | .leaf command (.tryCatch _ (some (y, body)) _) false => command == "try" && y == x && p body
  | _ => false

theorem Instr.exists_of_catches {x : String} {p : List Node → Bool} {i : Instr}
    (h : i.catches x p = true) : ∃ block body last,
      i = .leaf "try" (.tryCatch block (some (x, body)) last) false ∧ p body = true := by
  unfold catches at h
  split at h
  · simp only [Bool.and_eq_true, beq_iff_eq] at h
    obtain ⟨⟨rfl, rfl⟩, hp⟩ := h
    exact ⟨_, _, _, rfl, hp⟩
  · cases h

/-- A parameter of a function declaration and the name of a catch clause are redirected if a `var`
    elsewhere has the same name: `var x = 1; function f(x) { return x; }` and
    `var e = 1; try {} catch (e) { throw e; }`. -/
theorem transform_ignores_parameters :
    let declaration : List Node :=
      [.var [("x", .num "1")], .defun "f" ["x"] [.ret (.name "x")]]
    let handler : List Node :=
      [.var [("e", .num "1")], .tryCatch [] (some ("e", [.throw (.name "e")])) none]
    (∃ t, (transform {} (fun _ => false) (.toplevel declaration)).1 = .ok t ∧
      ∃ body, .defun "f" ["x"] body ∈ t.program ∧
        ⟨"x", .redirected, []⟩ ∈ Instr.referencesAll "$$locals" body) ∧
    ∃ t, (transform {} (fun _ => false) (.toplevel handler)).1 = .ok t ∧
      ∃ block body last, .leaf "try" (.tryCatch block (some ("e", body)) last) false ∈ t.program ∧
        ⟨"e", .redirected, []⟩ ∈ Node.referencesAll "$$locals" [] body := by
  intro declaration handler
  constructor
  · obtain ⟨t, ht, hcheck⟩ := exists_of_okAnd
      (r := (transform {} (fun _ => false) (.toplevel declaration)).1)
      (fun t => t.program.any <| Instr.declares "f" ["x"] fun body =>
        (Instr.referencesAll "$$locals" body).contains ⟨"x", .redirected, []⟩) (by decide +kernel)
    obtain ⟨i, hi, hcheck⟩ := List.any_eq_true.mp hcheck
    obtain ⟨body, rfl, hmem⟩ := Instr.exists_of_declares hcheck
    exact ⟨t, ht, body, hi, List.contains_iff_mem.mp hmem⟩
  · obtain ⟨t, ht, hcheck⟩ := exists_of_okAnd
      (r := (transform {} (fun _ => false) (.toplevel handler)).1)
      (fun t => t.program.any <| Instr.catches "e" fun body =>
        (Node.referencesAll "$$locals" [] body).contains ⟨"e", .redirected, []⟩) (by decide +kernel)
    obtain ⟨i, hi, hcheck⟩ := List.any_eq_true.mp hcheck
    obtain ⟨block, body, last, rfl, hmem⟩ := Instr.exists_of_catches hcheck
    exact ⟨t, ht, block, body, last, hi, List.contains_iff_mem.mp hmem⟩

end Resumable.Program
