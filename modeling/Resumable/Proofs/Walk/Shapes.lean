/-
  Resumable.Proofs.Walk.Shapes — the fields of an instruction agree.

  Whoever reads a program branches on the marks of an instruction and takes lists apart without
  looking: the tree of a loop drops the last instruction of a test, and the code of a leaf is the
  text of its payload.  `WellShaped` says what they rely on, for one instruction at a time, and
  every instruction that a walk leaves is well shaped (`Emits.wellShaped`).

  A list that was split has a temp because a split always makes one (`Emits.split_temps`).  A test
  stands nowhere but at the end of the list of a loop's condition: the other lists hold
  instructions of the shapes that `Shaped` knows.

  Main statement: `transform_shapes_instructions`.
-/
import Resumable.Proofs.Code.Figures
import Resumable.Proofs.Support
import Resumable.Proofs.Walk.Splits

namespace Resumable

namespace Program

namespace Instr

/-! ## §1. Shapes. -/

/-- No instruction of a list tests the condition of a loop. -/
def Untested (list : List Instr) : Prop := ∀ i ∈ list, i.command ≠ "test"

/-- A list has the name of a temp if it was split, and none otherwise. -/
structure TempFor (split : Bool) (temp : Option String) : Prop where
  named : split = true → ∃ t, temp = some t ∧ t ≠ ""
  unnamed : split = false → temp = none

/-- The list of a loop's condition, and what is known of the condition. -/
structure TestOf (cond : Node) (test : List Instr) (condSplit : Bool) : Prop where
  /-- A list without a test is the one of a loop without a condition. -/
  empty : test = [] → cond.isAbsent = true ∧ condSplit = false
  /-- Any other one ends with the only test of the condition. -/
  last : test ≠ [] → cond.isAbsent = false ∧
    ∃ front, test = front ++ [.leaf "test" cond false] ∧ Untested front
  /-- In front of it stands what was split out of the condition. -/
  alone : test ≠ [] → (test.length = 1 ↔ condSplit = false)
  /-- What is taken off the end of the list of a split condition is there. -/
  inRange : condSplit = true → 1 ≤ test.length

/-- An instruction whose fields agree. -/
inductive WellShaped : Instr → Prop
  /-- A leaf has a payload, and only a call may suspend. -/
  | leaf {command : String} {c : Node} {async : Bool} (payload : c.isAbsent = false)
      (calls : async = true → command = "call") : WellShaped (.leaf command c async)
  | branch {c : Node} {yes no : List Instr} {hasElse : Bool} {shape : Shape}
      {yesTemp noTemp : Option String} (cond : c.isAbsent = false)
      (ofYes : TempFor shape.yes yesTemp) (ofNo : TempFor shape.no noTemp)
      (empty : hasElse = false → no = []) (yesUntested : Untested yes)
      (noUntested : Untested no) :
      WellShaped (.branch c yes no hasElse shape yesTemp noTemp)
  | loop {c e : Node} {test step body : List Instr} {condSplit : Bool}
      (testOf : TestOf c test condSplit) (kept : e.isAbsent = false → step = [.stat e])
      (stepUntested : Untested step) (bodyUntested : Untested body) :
      WellShaped (.loop c test step body condSplit e)
  | defun {name : String} {params : List String} {body : List Instr}
      (untested : Untested body) : WellShaped (.defun name params body)

/-- What a branch or a loop has of the parts that may be left out. -/
inductive ShapedAs : Node → Instr → Prop
  | branch {c v yes no : Node} {yesList noList : List Instr} {hasElse : Bool} {shape : Shape}
      {yesTemp noTemp : Option String} (other : hasElse = true ↔ no.isAbsent = false) :
      ShapedAs (.ifElse c yes no) (.branch v yesList noList hasElse shape yesTemp noTemp)
  /-- A step stays in place if it was not split, that is, if it has no call. -/
  | loop {init cond step body v e : Node} {test stepList bodyList : List Instr}
      {condSplit : Bool} (tested : test = [] ↔ cond.isAbsent = true)
      (kept : e.isAbsent = false ↔ step.isAbsent = false ∧ step.analysedCalls = []) :
      ShapedAs (.forLoop init cond step body) (.loop v test stepList bodyList condSplit e)

variable {i : Instr} {list : List Instr}

theorem Plain.command_ne (h : Plain i) : i.command ≠ "test" := by
  cases h <;> simp [command, Instr.stat]

theorem Shaped.command_ne (h : Shaped i) : i.command ≠ "test" := by
  cases h with
  | plain h => exact h.command_ne
  | @passed n h => cases n <;> cases h <;> simp [command, Node.tag, Node.kind?, Kind.tag]
  | branch | loop | defun => simp [command]

theorem untested_of_plain (h : ∀ i ∈ list, Plain i) : Untested list :=
  fun i hi => (h i hi).command_ne

theorem untested_of_shaped (h : ∀ i ∈ list, Shaped i) : Untested list :=
  fun i hi => (h i hi).command_ne

theorem StepShape.untested {e : Node} (h : StepShape e list) : Untested list := by
  cases h with
  | kept => exact untested_of_plain (List.forall_mem_singleton.mpr (.stat e))
  | split hplain => exact untested_of_plain hplain

theorem StepShape.step_eq {e : Node} (h : StepShape e list) (he : e.isAbsent = false) :
    list = [.stat e] := by
  cases h with
  | kept => rfl
  | split => cases he

/-- A leaf holds nothing. -/
theorem every_leaf {P : Instr → Prop} {command : String} {c : Node} {async : Bool} :
    Every P [.leaf command c async] ↔ P (.leaf command c async) :=
  every_single.trans (and_iff_left every_nil)

end Instr

namespace Walk

open Instr (Every Plain Untested TempFor TestOf WellShaped ShapedAs every_nil every_append
  every_single every_leaf untested_of_plain untested_of_shaped)

section

variable {env : Surface} {job : Job} {σ σ' : Scope} {n v : Node} {vs : List Node} {split : Bool}
  {code : List Instr} {i : Instr}

/-! ## §2. Temps of lists that were split. -/

theorem toNat_or_le (a b : Bool) : (a || b).toNat ≤ a.toNat + b.toNat := by
  cases a <;> cases b <;> decide

/-- A walk that splits makes a temp. -/
theorem Emits.split_temps (h : Emits env job σ vs split code σ') :
    σ.temps + split.toNat ≤ σ'.temps := by
  induction h with
  | reference | literal | operandsNil | void | stmtsNil | bindingsNil => exact Nat.le_refl _
  | copied | passed => exact (declares_copyScope _ _).temps
  | kept _ _ ih | assigned _ _ ih | effect _ ih | leads _ _ ih | test _ ih => exact ih
  | captured _ _ ih => exact Nat.le_succ_of_le ih
  | called _ ih => exact Nat.succ_le_succ (Nat.le_of_add_right_le ih)
  | declaration _ ih => exact Nat.le_of_add_right_le ih
  | @operandsCons _ _ _ _ _ _ _ split split' _ _ _ _ ih ih' =>
    have hor := toNat_or_le split split'
    omega
  | @stmtsCons _ _ _ _ _ _ _ split split' _ _ _ _ ih ih' =>
    have hor := toNat_or_le split' split
    omega
  | @branch _ _ _ _ _ _ _ _ _ _ condSplit yesSplit noSplit _ _ _ _ _ _ ih ih₁ ih₂ =>
    have hor := toNat_or_le condSplit yesSplit
    have hor' := toNat_or_le (condSplit || yesSplit) noSplit
    omega
  | @loop _ _ _ _ _ _ _ _ _ _ _ _ _ initSplit condSplit stepSplit bodySplit _ _ _ _ _ _ _ _
      ih ih₁ ih₂ ih₃ =>
    have hor := toNat_or_le initSplit condSplit
    have hor' := toNat_or_le (initSplit || condSplit) stepSplit
    have hor'' := toNat_or_le (initSplit || condSplit || stepSplit) bodySplit
    omega
  | @bare σ _ x _ _ _ _ _ ih =>
    rw [← (Scope.declares_declare σ x).sameTemps]
    exact ih
  | @bound σ _ _ x _ _ _ _ split split' _ _ _ _ ih ih' =>
    have hor := toNat_or_le split' split
    have hdeclare := (Scope.declares_declare σ x).sameTemps
    omega

theorem temp_ne_empty (σ : Scope) (k : Nat) : σ.temp k ≠ "" := by
  unfold Scope.temp
  rw [Ne, String.append_eq_empty_iff, not_and]
  exact fun _ => Nat.repr_ne_empty

/-- What stands for a list that was walked last. -/
theorem Emits.tempFor (h : Emits env job σ vs split code σ') :
    TempFor split (regionTemp split σ') where
  named hs := by
    subst hs
    have hmade : 0 < σ'.temps := Nat.lt_of_lt_of_le (Nat.succ_pos _) h.split_temps
    obtain ⟨k, hk⟩ := Nat.exists_eq_succ_of_ne_zero (Nat.pos_iff_ne_zero.mp hmade)
    refine ⟨σ'.temp k, ?_, temp_ne_empty σ' k⟩
    rw [regionTemp, if_pos rfl, Scope.lastTemp?, hk]
  unnamed hs := if_neg (by simp [hs])

/-! ## §3. Instructions of a walk. -/

theorem isAbsent_of_isPassed (h : isPassed n = true) : n.isAbsent = false := by
  cases n with
  | absent => cases h
  | _ => rfl

theorem Emits.value_present (h : Emits env (.expr n) σ [v] split code σ') :
    v.isAbsent = false := by
  obtain ⟨-, -, hv⟩ := h.value_code rfl
  exact Node.isAbsent_of_isExpression (hv v List.mem_cons_self)

/-- A walk that splits a value leaves instructions. -/
theorem Emits.split_code (h : Emits env (.expr n) σ vs true code σ') : code ≠ [] := by
  rintro rfl
  exact h.calls_of_split rfl rfl

/-- The list of a condition. -/
theorem Emits.testOf (h : Emits env (.test n) σ [v] split code σ') : TestOf v code split := by
  cases h with
  | void => exact ⟨fun _ => ⟨rfl, rfl⟩, fun h => absurd rfl h, fun h => absurd rfl h, nofun⟩
  | leads hl => cases hl
  | @test _ _ _ _ _ front value =>
    have hlength : (front ++ [Instr.leaf "test" v false]).length = front.length + 1 := by simp
    refine ⟨fun h => by simp at h, fun _ => ⟨value.value_present, front, rfl,
      untested_of_plain value.plain⟩, fun _ => ?_, fun _ => by omega⟩
    rw [hlength, Nat.add_eq_right, List.length_eq_zero_iff]
    cases split with
    | true => simpa using value.split_code
    | false => simpa using value.kept_value.1

/-- A condition leaves no test only if it is not there. -/
theorem Emits.test_empty (h : Emits env (.test n) σ [v] split code σ') :
    code = [] ↔ n.isAbsent = true := by
  cases h with
  | void hv =>
    cases hv
    exact iff_of_true rfl rfl
  | leads hl => cases hl
  | test value => simp [value.expr_present]

/-- A step stays in place if it is there and was not split. -/
theorem Emits.step_kept (h : Emits env (.step n) σ [v] split code σ') :
    (if split then Node.absent else v).isAbsent = false ↔
      n.isAbsent = false ∧ n.analysedCalls = [] := by
  have hsplit : split = true ↔ n.analysedCalls ≠ [] := h.split_iff
  cases h with
  | void hv =>
    cases hv
    exact iff_of_false nofun nofun
  | leads hl done =>
    cases hl
    cases done with
    | void hv => cases hv
    | leads hl => cases hl
    | effect value =>
      rw [value.expr_present]
      cases split with
      | true => simpa [Node.isAbsent] using hsplit
      | false => simpa [value.value_present] using hsplit

theorem Translates.wellShaped (h : Translates env n i) : WellShaped i := by
  cases h with
  | branch cond yesDone noDone =>
    refine .branch cond.value_present yesDone.tempFor noDone.tempFor (fun he => ?_)
      (untested_of_shaped (yesDone.shaped nofun)) (untested_of_shaped (noDone.shaped nofun))
    exact region_absent noDone (by simpa using he)
  | loop testDone stepDone bodyDone =>
    exact .loop testDone.testOf stepDone.step_shape.step_eq stepDone.step_shape.untested
      (untested_of_shaped (bodyDone.shaped nofun))

theorem Translates.shapedAs (h : Translates env n i) : ShapedAs n i := by
  cases h with
  | branch cond yesDone noDone => exact .branch (by simp)
  | loop testDone stepDone bodyDone => exact .loop testDone.test_empty stepDone.step_kept

/-- Every instruction of a walk is well shaped, those inside others included. -/
theorem Emits.wellShaped (h : Emits env job σ vs split code σ') : Every WellShaped code := by
  have hstat (e : Node) : Every WellShaped [.stat e] := every_leaf.mpr (.leaf rfl nofun)
  induction h with
  | reference | literal | copied | operandsNil | void | stmtsNil | bindingsNil => exact every_nil
  | kept _ _ ih | leads _ _ ih => exact ih
  | captured _ _ ih | assigned _ _ ih => exact every_append.mpr ⟨ih, hstat _⟩
  | called _ ih =>
    exact every_append.mpr ⟨ih, .cons (every_leaf.mpr (.leaf rfl fun _ => rfl)) (hstat _)⟩
  | operandsCons _ _ ih ih' | stmtsCons _ _ ih ih' => exact every_append.mpr ⟨ih, ih'⟩
  | @effect _ _ _ v split _ _ ih =>
    cases split with
    | true => exact every_append.mpr ⟨ih, every_nil⟩
    | false => exact every_append.mpr ⟨ih, hstat v⟩
  | test value ih =>
    exact every_append.mpr ⟨ih, every_leaf.mpr (.leaf value.value_present nofun)⟩
  | branch cond yesDone noDone ih ih₁ ih₂ =>
    have hbranch := (Translates.branch cond yesDone noDone).wellShaped
    exact every_append.mpr ⟨ih, every_single.mpr ⟨hbranch, every_append.mpr ⟨ih₁, ih₂⟩⟩⟩
  | @loop _ _ _ _ _ init _ _ _ _ _ _ _ _ _ _ _ _ _ _ _ _ testDone stepDone bodyDone ih ih₁ ih₂
      ih₃ =>
    have hdone : Translates env (.forLoop init _ _ _) _ := .loop testDone stepDone bodyDone
    exact every_append.mpr ⟨ih, every_single.mpr
      ⟨hdone.wellShaped, every_append.mpr ⟨every_append.mpr ⟨ih₁, ih₂⟩, ih₃⟩⟩⟩
  | declaration body ih =>
    exact every_single.mpr ⟨.defun (untested_of_shaped (body.shaped nofun)), ih⟩
  | @passed σ n hp =>
    refine every_leaf.mpr (.leaf ?_ nofun)
    obtain ⟨hcopy, -⟩ := isPassed_copy (σ := σ) hp
    exact isAbsent_of_isPassed hcopy
  | bare _ ih => exact .cons (hstat _) ih
  | @bound σ _ _ x _ _ _ _ split _ _ _ _ _ ih ih' =>
    have hfront : Every WellShaped (placeholder split (σ.field x)) := by
      cases split with
      | true => exact hstat _
      | false => exact every_nil
    exact every_append.mpr ⟨every_append.mpr ⟨hfront, ih⟩, .cons (hstat _) ih'⟩

end

end Walk

/-! ## §4. Payloads. -/

/-- The nodes that the code of an instruction is made of, without those of nested ones. -/
def Instr.payloads : Instr → List Node
  | leaf _ code _ => [code]
  | branch cond _ _ _ _ _ _ => [cond]
  | loop _ _ _ _ _ _ | defun _ _ _ => []

theorem Instr.WellShaped.payloads {i : Instr} (h : WellShaped i) :
    ∀ n ∈ i.payloads, n.isAbsent = false := by
  cases h with
  | leaf hpayload => exact List.forall_mem_singleton.mpr hpayload
  | branch hcond => exact List.forall_mem_singleton.mpr hcond
  | loop | defun => exact List.forall_mem_nil _

/-- A failure of a program's renderer at a node with a property, reported with the way to the
    instruction. -/
def Refused (P : Node → Prop) (render : Renderer) (f : Failure) : Prop :=
  ∃ path n cause, (P n ∧ render n = .error cause) ∧
    f = .report { phase := .serialize, category := .encode, path, node := n.tag } (some cause)

section

open Instr (WellShaped Every every_cons every_single every_append)

variable {P : Node → Prop} {render : Renderer} {f : Failure}

/-- A payload that is there is only refused by the renderer. -/
theorem payload_refused {path : List String} {n : Node} (hp : P n) (hn : n.isAbsent = false)
    (h : payload render path n = .error f) : Refused P render f := by
  rw [payload, if_neg (by simp [hn])] at h
  cases hr : render n with
  | ok text => rw [hr] at h; cases h
  | error cause =>
    rw [hr] at h
    cases h
    exact ⟨path, n, cause, ⟨hp, hr⟩, rfl⟩

mutual

/-- Serializing an instruction with all its payloads fails only where the renderer does. -/
theorem serialize_refused (present : ∀ n, P n → n.isAbsent = false) {path : List String}
    {i : Instr} (hi : Every (fun i => ∀ n ∈ i.payloads, P n) [i])
    (h : serialize render path i = .error f) : Refused P render f := by
  obtain ⟨hpayloads, hinner⟩ := every_single.mp hi
  cases i with
  | leaf command code async =>
    have hcode := hpayloads code List.mem_cons_self
    rw [serialize] at h
    rcases bind_eq_error h with h | ⟨text, -, h⟩
    · exact payload_refused hcode (present _ hcode) h
    · cases h
  | branch cond yes no hasElse shape yesTemp noTemp =>
    have hcond := hpayloads cond List.mem_cons_self
    obtain ⟨hyes, hno⟩ := every_append.mp hinner
    rw [serialize] at h
    rcases bind_eq_error h with h | ⟨text, -, h⟩
    · exact payload_refused hcond (present _ hcond) h
    rcases bind_eq_error h with h | ⟨yes', -, h⟩
    · exact serializeAll_refused_of present hyes h
    rcases bind_eq_error h with h | ⟨no', -, h⟩
    · exact serializeAll_refused_of present hno h
    · cases h
  | loop cond test step body condSplit stepExpr =>
    obtain ⟨hfirst, hbody⟩ := every_append.mp hinner
    obtain ⟨htest, hstep⟩ := every_append.mp hfirst
    rw [serialize] at h
    rcases bind_eq_error h with h | ⟨test', -, h⟩
    · exact serializeAll_refused_of present htest h
    rcases bind_eq_error h with h | ⟨step', -, h⟩
    · exact serializeAll_refused_of present hstep h
    rcases bind_eq_error h with h | ⟨body', -, h⟩
    · exact serializeAll_refused_of present hbody h
    · cases h
  | defun name params body =>
    rw [serialize] at h
    rcases bind_eq_error h with h | ⟨body', -, h⟩
    · exact serializeAll_refused_of present hinner h
    · cases h
termination_by structural i

/-- A list whose payloads are all there fails only where the renderer does. -/
theorem serializeAll_refused_of (present : ∀ n, P n → n.isAbsent = false) {path : List String}
    {k : Nat} {list : List Instr} (hlist : Every (fun i => ∀ n ∈ i.payloads, P n) list)
    (h : serializeAll render path k list = .error f) : Refused P render f := by
  cases list with
  | nil => cases h
  | cons i rest =>
    obtain ⟨hi, hinner, hrest⟩ := every_cons.mp hlist
    rw [serializeAll] at h
    rcases bind_eq_error h with h | ⟨op, -, h⟩
    · exact serialize_refused present (every_single.mpr ⟨hi, hinner⟩) h
    rcases bind_eq_error h with h | ⟨ops, -, h⟩
    · exact serializeAll_refused_of present hrest h
    · cases h
termination_by structural list

end

theorem serializeAll_refused {path : List String} {k : Nat} {list : List Instr}
    (hlist : Every WellShaped list) (h : serializeAll render path k list = .error f) :
    Refused (fun n => n.isAbsent = false) render f :=
  serializeAll_refused_of (fun _ hn => hn) (fun i hi => (hlist i hi).payloads) h

end

/-! ## §5. Whole units. -/

/-- The instructions of a program are well shaped, and no test stands in the outermost list.  The
    branches and loops have an other side, a test and a step in place as their sources have them.
    Serializing the program never meets an instruction without a payload. -/
theorem transform_shapes_instructions (naming : Naming) (isAsync : String → Bool) (unit : Node)
    (t : Transformed) (h : (transform naming isAsync unit).1 = .ok t) :
    (∀ i ∈ Instr.walkAll t.program, Instr.WellShaped i) ∧ Instr.Untested t.program ∧
      (∃ body, unit = .toplevel body ∧
        List.Forall₂ Instr.ShapedAs (Node.controlsAll body) (Instr.controls t.program)) ∧
      ∀ (render : Renderer) (path : List String), toCode render t.program ≠
        .error (.invalidData .serialize path "instruction without payload") := by
  obtain ⟨body, σ, rfl, hd⟩ := transform_emits h
  obtain ⟨vs, split, he⟩ := hd.emits
  have hshaped : Instr.Every Instr.WellShaped t.program := he.wellShaped
  refine ⟨hshaped, Instr.untested_of_shaped (he.shaped nofun), ⟨body, rfl, ?_⟩, ?_⟩
  · exact (transform_translates h).imp fun _ _ hi => hi.shapedAs
  · intro render path hcode
    obtain ⟨_, _, _, -, heq⟩ := serializeAll_refused hshaped hcode
    -- what a renderer refused has a cause
    cases congrArg Failure.cause? heq

/-- A branch with a call in its condition and in the side that is there, and a loop with a call in
    its condition and a step without one:
    `if (f(x)) g(x);` and `for (; h(x); x = 1) y = x;`. -/
theorem transform_shapes_instructions_of_loop :
    let unit : Node := .toplevel [.ifElse (.call (.name "f") [.name "x"])
        (.stat (.call (.name "g") [.name "x"])) .absent,
      .forLoop .absent (.call (.name "h") [.name "x"]) (.assign "" (.name "x") (.num "1"))
        (.stat (.assign "" (.name "y") (.name "x")))]
    ∃ t, (transform {} (fun _ => false) unit).1 = .ok t ∧
      (∀ i ∈ Instr.walkAll t.program, Instr.WellShaped i) ∧ Instr.Untested t.program ∧
      (∃ body, unit = .toplevel body ∧
        List.Forall₂ Instr.ShapedAs (Node.controlsAll body) (Instr.controls t.program)) ∧
      ∀ (render : Renderer) (path : List String), toCode render t.program ≠
        .error (.invalidData .serialize path "instruction without payload") := by
  intro unit
  obtain ⟨t, ht⟩ : ∃ t, (transform {} (fun _ => false) unit).1 = .ok t :=
    exists_of_isOk (by decide +kernel)
  exact ⟨t, ht, transform_shapes_instructions {} (fun _ => false) unit t ht⟩

end Program

end Resumable
