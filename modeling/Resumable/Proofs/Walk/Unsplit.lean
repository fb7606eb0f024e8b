/-
  Resumable.Proofs.Walk.Unsplit — what has no call is not split.

  Whatever a walk splits leaves a call in its code (`Emits.calls_of_split`), and the calls of the
  code are those of the source, so nothing is split where the source has no call (`Emits.unsplit`).

  An expression that is not split is walked as `rename` copies it.  The two are written apart:
  `expr` takes an expression to its operands and puts their values together again, `rename` follows
  the tree.  `Renamed` compares them operand by operand (`Emits.renamed`).

  Main statement: `expr_eq_copy`.
-/
import Resumable.Proofs.Execution.Agreement
import Resumable.Proofs.Walk.Calls

namespace Resumable.Program

namespace Walk

variable {env : Surface} {job : Job} {σ σ' σ₁ : Scope} {n v : Node} {ns ms vs ws : List Node}
  {split : Bool} {code xs ys : List Instr}

/-! ## §1. Splits and calls. -/

theorem calls_append_ne_nil {c d : List Instr} :
    Instr.calls (c ++ d) ≠ [] ↔ Instr.calls c ≠ [] ∨ Instr.calls d ≠ [] := by
  rw [Instr.calls_append, Ne, List.append_eq_nil_iff, not_and_or]

/-- What was split has a call in its code. -/
theorem Emits.calls_of_split (h : Emits env job σ vs split code σ') :
    split = true → Instr.calls code ≠ [] := by
  induction h with
  | reference | literal | copied | kept | operandsNil | void | declaration | passed | stmtsNil
  | bindingsNil => nofun
  | captured _ _ ih | assigned _ _ ih => exact fun _ => calls_append_ne_nil.mpr (.inl (ih rfl))
  | called _ _ =>
    refine fun _ => calls_append_ne_nil.mpr (.inr ?_)
    simp [Instr.calls, callInstr, captureInstr, Instr.set, Instr.stat, Instr.walkAll, Instr.walk,
      Instr.command]
  | operandsCons _ _ ih ih' =>
    intro hs
    rw [Bool.or_eq_true] at hs
    exact calls_append_ne_nil.mpr (hs.imp ih ih')
  | stmtsCons _ _ ih ih' =>
    intro hs
    rw [Bool.or_eq_true] at hs
    exact calls_append_ne_nil.mpr (hs.symm.imp ih ih')
  | effect _ ih | test _ ih => exact fun hs => calls_append_ne_nil.mpr (.inl (ih hs))
  | leads _ _ ih => exact ih
  | branch _ _ _ ih ih₁ ih₂ =>
    intro hs
    rw [Bool.or_eq_true, Bool.or_eq_true, or_assoc] at hs
    refine calls_append_ne_nil.mpr (hs.imp ih fun hs => ?_)
    rw [Instr.calls_single (by simp [Instr.command])]
    exact calls_append_ne_nil.mpr (hs.imp ih₁ ih₂)
  | loop _ _ _ _ ih ih₁ ih₂ ih₃ =>
    intro hs
    rw [Bool.or_eq_true, Bool.or_eq_true, Bool.or_eq_true, or_assoc, or_assoc] at hs
    refine calls_append_ne_nil.mpr (hs.imp ih fun hs => ?_)
    rw [Instr.calls_single (by simp [Instr.command]), Instr.inner, List.append_assoc]
    refine calls_append_ne_nil.mpr (hs.imp ih₁ fun hs => ?_)
    exact calls_append_ne_nil.mpr (hs.imp ih₂ ih₃)
  | @bare σ σ' x ds vs split code rest ih =>
    exact fun hs => (calls_append_ne_nil (c := [.set (σ.field x) .null])).mpr (.inr (ih hs))
  | @bound σ σ₁ σ₂ x init v ds vs split split' code code' value rest ih ih' =>
    intro hs
    rw [Bool.or_eq_true] at hs
    rcases hs with hs | hs
    · refine calls_append_ne_nil.mpr (.inr ?_)
      exact (calls_append_ne_nil (c := [.set (σ.field x) v])).mpr (.inr (ih' hs))
    · exact calls_append_ne_nil.mpr (.inl (calls_append_ne_nil.mpr (.inr (ih hs))))

/-- A job without calls is not split, and its code has no calls. -/
theorem Emits.unsplit (h : Emits env job σ vs split code σ') (hc : job.calls = []) :
    split = false ∧ Instr.calls code = [] := by
  have hmatch := h.calls_match
  unfold CallsMatch at hmatch
  rw [hc, List.forall₂_nil_left_iff] at hmatch
  refine ⟨?_, hmatch⟩
  cases hs : split with
  | false => rfl
  | true => exact absurd hmatch (h.calls_of_split hs)

/-! ## §2. Copies, operand by operand. -/

/-- Copying a node gives a node and a scope. -/
def Renamed (σ : Scope) (n v : Node) (σ' : Scope) : Prop := (rename {} n).run σ = (v, σ')

/-- Copying nodes from left to right. -/
def RenamedAll (σ : Scope) (ns vs : List Node) (σ' : Scope) : Prop :=
  (renameAll {} ns).run σ = (vs, σ')

/-- Copies are put together one after the other. -/
theorem run_bind {α β : Type} {m : StateM Scope α} {f : α → StateM Scope β} {a : α} {r : β × Scope}
    (h : m.run σ = (a, σ₁)) (h' : (f a).run σ₁ = r) : (m >>= f).run σ = r := by
  show (f (m.run σ).1).run (m.run σ).2 = r
  rw [h]
  exact h'

theorem Renamed.eq_copy (h : Renamed σ n v σ') : v = copy σ n ∧ σ' = copyScope σ n :=
  ⟨(congrArg Prod.fst h).symm, (congrArg Prod.snd h).symm⟩

theorem renamedAll_nil : RenamedAll σ [] vs σ' ↔ vs = [] ∧ σ' = σ := by
  unfold RenamedAll
  rw [renameAll]
  show ([], σ) = (vs, σ') ↔ _
  rw [Prod.mk.injEq, eq_comm, @eq_comm _ σ]

theorem renamedAll_cons : RenamedAll σ (n :: ns) vs σ' ↔
    ∃ v σ₁ ws, Renamed σ n v σ₁ ∧ RenamedAll σ₁ ns ws σ' ∧ vs = v :: ws := by
  unfold RenamedAll Renamed
  rw [renameAll]
  constructor
  · intro h
    cases h
    exact ⟨_, _, _, rfl, rfl, rfl⟩
  · rintro ⟨v, σ₁, ws, hn, hns, rfl⟩
    exact run_bind hn (run_bind hns rfl)

theorem renamedAll_one : RenamedAll σ [n] vs σ' ↔ ∃ v, Renamed σ n v σ' ∧ vs = [v] := by
  rw [renamedAll_cons]
  constructor
  · rintro ⟨v, σ₁, ws, hn, hws, rfl⟩
    obtain ⟨rfl, rfl⟩ := renamedAll_nil.mp hws
    exact ⟨v, hn, rfl⟩
  · rintro ⟨v, hn, rfl⟩
    exact ⟨v, σ', [], hn, renamedAll_nil.mpr ⟨rfl, rfl⟩, rfl⟩

theorem renamedAll_append : RenamedAll σ (ms ++ ns) vs σ' ↔
    ∃ us σ₁ ws, RenamedAll σ ms us σ₁ ∧ RenamedAll σ₁ ns ws σ' ∧ vs = us ++ ws := by
  induction ms generalizing σ vs with
  | nil =>
    constructor
    · exact fun h => ⟨[], σ, vs, renamedAll_nil.mpr ⟨rfl, rfl⟩, h, rfl⟩
    · rintro ⟨us, σ₁, ws, hus, hws, rfl⟩
      obtain ⟨rfl, rfl⟩ := renamedAll_nil.mp hus
      exact hws
  | cons m ms ih =>
    rw [List.cons_append, renamedAll_cons]
    constructor
    · rintro ⟨v, σ₁, ws, hm, hrest, rfl⟩
      obtain ⟨us, σ₂, ws, hms, hns, rfl⟩ := ih.mp hrest
      exact ⟨v :: us, σ₂, ws, renamedAll_cons.mpr ⟨v, σ₁, us, hm, hms, rfl⟩, hns, rfl⟩
    · rintro ⟨us, σ₂, ws, hus, hns, rfl⟩
      obtain ⟨v, σ₁, us, hm, hms, rfl⟩ := renamedAll_cons.mp hus
      exact ⟨v, σ₁, us ++ ws, hm, ih.mpr ⟨us, σ₂, ws, hms, hns, rfl⟩, rfl⟩

/-- As many copies as nodes. -/
theorem RenamedAll.length (h : RenamedAll σ ns vs σ') : vs.length = ns.length := by
  induction ns generalizing σ vs with
  | nil => rw [(renamedAll_nil.mp h).1]
  | cons n ns ih =>
    obtain ⟨v, σ₁, ws, -, hns, rfl⟩ := renamedAll_cons.mp h
    rw [List.length_cons, List.length_cons, ih hns]

/-- The values of named fields are copied from left to right. -/
theorem renameFields_of_renamedAll {ps : List (String × Node)}
    (h : RenamedAll σ (ps.map (·.2)) vs σ') :
    (renameFields {} ps).run σ = ((ps.map (·.1)).zip vs, σ') := by
  induction ps generalizing σ vs with
  | nil =>
    obtain ⟨rfl, rfl⟩ := renamedAll_nil.mp h
    rw [renameFields]
    rfl
  | cons p ps ih =>
    obtain ⟨k, n⟩ := p
    obtain ⟨v, σ₁, ws, hn, hps, rfl⟩ := renamedAll_cons.mp h
    rw [renameFields]
    exact run_bind hn (run_bind (ih hps) rfl)

/-! ## §3. Expressions that are not split. -/

theorem renamed_name (x : String) : Renamed σ (.name x) (σ.resolve x) σ := by
  unfold Renamed
  rw [rename]
  rfl

theorem renamed_literal (h : form n = .literal) : Renamed σ n n σ := by
  cases n with
  | num _ | string _ | atom _ | regexp _ _ =>
    unfold Renamed
    rw [rename]
    rfl
  | assign op t v => rcases form_assign op t v with ha | ha <;> cases ha.symm.trans h
  | _ => cases h

/-- What is assigned to is copied by copying its operands. -/
theorem renamed_place {t : Node} (ht : isTarget t = true)
    (h : RenamedAll σ (placeParts t) vs σ') : Renamed σ t (placeFrom σ t vs) σ' := by
  cases t with
  | name x =>
    obtain ⟨rfl, rfl⟩ := renamedAll_nil.mp h
    exact renamed_name x
  | dot b f =>
    obtain ⟨v, hb, rfl⟩ := renamedAll_one.mp h
    unfold Renamed
    rw [rename]
    exact run_bind hb rfl
  | sub b i =>
    obtain ⟨v, σ₁, ws, hb, hws, rfl⟩ := renamedAll_cons.mp h
    obtain ⟨w, hi, rfl⟩ := renamedAll_one.mp hws
    unfold Renamed
    rw [rename]
    exact run_bind hb (run_bind hi rfl)
  | _ => cases ht

/-- An expression is copied by copying its operands. -/
theorem renamed_assemble (hf : form n = .combined ∨ form n = .assigned)
    (h : RenamedAll σ (parts n) vs σ') : Renamed σ n (assemble σ n vs) σ' := by
  cases n with
  | new c as =>
    obtain ⟨v, σ₁, ws, hc, has, rfl⟩ := renamedAll_cons.mp h
    unfold Renamed
    rw [rename]
    exact run_bind hc (run_bind has rfl)
  | binary op l r =>
    obtain ⟨v, σ₁, ws, hl, hws, rfl⟩ := renamedAll_cons.mp h
    obtain ⟨w, hr, rfl⟩ := renamedAll_one.mp hws
    unfold Renamed
    rw [rename]
    exact run_bind hl (run_bind hr rfl)
  | unary side op e =>
    have he : Renamed σ e (operandFrom σ op e vs) σ' := by
      unfold operandFrom
      rw [parts, operandParts] at h
      split at h
      · next hop =>
        rw [if_pos hop]
        exact renamed_place (Bool.and_eq_true_iff.mp hop).2 h
      · next hop =>
        obtain ⟨v, he, rfl⟩ := renamedAll_one.mp h
        rw [if_neg hop]
        exact he
    unfold Renamed
    rw [rename]
    exact run_bind he rfl
  | assign op t v =>
    have ht := isTarget_of_form (hf.elim .inl (.inr ∘ .inl))
    obtain ⟨us, σ₁, ws, hus, hws, rfl⟩ := renamedAll_append.mp h
    obtain ⟨w, hv, rfl⟩ := renamedAll_one.mp hws
    rw [assemble_assign hus.length]
    unfold Renamed
    rw [rename]
    exact run_bind (renamed_place ht hus) (run_bind hv rfl)
  | dot b f =>
    have hb := renamed_place (t := .dot b f) rfl h
    obtain ⟨v, -, rfl⟩ := renamedAll_one.mp h
    exact hb
  | sub b i =>
    have hb := renamed_place (t := .sub b i) rfl h
    obtain ⟨v, σ₁, ws, -, hi, rfl⟩ := renamedAll_cons.mp h
    obtain ⟨w, -, rfl⟩ := renamedAll_one.mp hi
    exact hb
  | array es =>
    unfold Renamed
    rw [rename]
    exact run_bind h rfl
  | object ps =>
    unfold Renamed
    rw [rename]
    exact run_bind (renameFields_of_renamedAll h) rfl
  | _ => rcases hf with hf | hf <;> cases hf

/-- Values that were not split are copies. -/
def Job.Renamed (σ : Scope) (vs : List Node) (σ' : Scope) : Job → Prop
  | .expr n => ∀ v, vs = [v] → Walk.Renamed σ n v σ'
  | .operands ns => RenamedAll σ ns vs σ'
  | _ => True

/-- A walk that splits nothing copies. -/
theorem Emits.renamed (h : Emits env job σ vs split code σ') :
    split = false → job.Renamed σ vs σ' := by
  induction h with
  | reference x =>
    rintro - _ ⟨⟩
    exact renamed_name x
  | literal hf =>
    rintro - _ ⟨⟩
    exact renamed_literal hf
  | copied =>
    rintro - _ ⟨⟩
    rfl
  | kept hf _ ih =>
    rintro - _ ⟨⟩
    exact renamed_assemble hf (ih rfl)
  | captured | assigned | called => nofun
  | operandsNil => exact fun _ => renamedAll_nil.mpr ⟨rfl, rfl⟩
  | operandsCons _ _ ih ih' =>
    intro hs
    rw [Bool.or_eq_false_iff] at hs
    exact renamedAll_cons.mpr ⟨_, _, _, ih hs.1 _ rfl, ih' hs.2, rfl⟩
  | leads hl => cases hl <;> exact fun _ => trivial
  | void hv => cases hv <;> exact fun _ => trivial
  | _ => exact fun _ => trivial

/-- What is walked as an expression is there. -/
theorem Emits.expr_present (h : Emits env (.expr n) σ vs split code σ') : n.isAbsent = false := by
  cases n with
  | absent =>
    cases h with
    | literal hf | copied hf | captured hf => cases hf
    | kept hf => rcases hf with hf | hf <;> cases hf
    | leads hl => cases hl
    | void hv => cases hv
  | _ => rfl

/-- The walk of an expression without calls gives the copy of it, in the scope of the copy. -/
theorem Emits.copied_of_calls (h : Emits env (.expr n) σ [v] split code σ')
    (hc : n.analysedCalls = []) :
    split = false ∧ code = [] ∧ v = copy σ n ∧ σ' = copyScope σ n := by
  obtain ⟨rfl, -⟩ := h.unsplit hc
  exact ⟨rfl, h.kept_value.1, (h.renamed rfl v rfl).eq_copy⟩

/-- On an expression without calls the analysing walk and the copy agree. -/
theorem expr_eq_copy {s s' : State} (h : expr env n s = (.ok (v, split), s'))
    (hc : n.analysedCalls = []) :
    v = copy s.scope n ∧ split = false ∧ s'.scope = copyScope s.scope n := by
  obtain ⟨code, he, -⟩ := expr_yields h
  obtain ⟨hs, -, hv, hσ⟩ := he.copied_of_calls hc
  exact ⟨hv, hs, hσ⟩

end Walk

end Resumable.Program
