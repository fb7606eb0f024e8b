/-
  Resumable.Proofs.Changes.Interference — what is changed before a value is read.

  The values of operands are read by the instruction that their expression becomes, behind the code
  of all operands.  The code of an operand further behind runs in between.  A temp is safe there,
  for it is set once.  An assignment that was split is not read from a temp but from what it
  assigned to, and that may be changed in between by an operand that changes the same place.

  Main statements:
    * `Emits.consumed`                  — where the code of a split operand and its use stand;
    * `Consumed.kept`, `temp_kept`      — what may change a value between the two;
    * `expr_keeps_values`               — all of this, for every expression;
    * `transform_reads_changed_target`  — a target that is changed before it is read.
-/
import Resumable.Proofs.Changes.Places
import Resumable.Proofs.Walk.Dotted
import Resumable.Proofs.Walk.Splits

namespace Resumable.Program

namespace Walk

open Node (names_changed names_changedPlaces names_subset inspect_subset NamesAllIn namesIn_name
  namesIn_children)

section

variable {env : Surface} {σ σ' σ₁ σ₂ : Scope} {n g v w : Node} {ns vs : List Node}
  {split : Bool} {code : List Instr}

/-! ## §1. Names in values and in changed places. -/

variable {A : String → Prop}

/-- Values mention the names of their expressions, the container and the new temps. -/
theorem Emits.values_named {job : Job} (h : Emits env job σ vs split code σ') :
    job.isValue = true → NamesAllIn A job.nodes → A σ.container →
      (∀ x ∈ σ.tempsTo σ', A x) → NamesAllIn A vs := by
  induction h with
  | reference x =>
    intro _ hn hc _
    exact namesIn_one.mpr (Scope.namesIn_resolve hc (namesIn_name.mp (namesIn_one.mp hn)))
  | literal => exact fun _ hn _ _ => hn
  | copied => exact fun _ hn hc _ => namesIn_one.mpr (copy_names (namesIn_one.mp hn) hc)
  | kept _ _ ih =>
    intro _ hn hc ht
    have hn := namesIn_one.mp hn
    exact namesIn_one.mpr (assemble_names hn (ih rfl (parts_names hn) hc ht) hc)
  | @captured σ σ' n vs code _ ops _ | @called σ σ' c args vs split code ops _ =>
    intro _ _ _ ht
    refine namesIn_one.mpr (namesIn_name.mpr (ht _ ?_))
    rw [ops.grows.tempsTo_append (Scope.grows_nextTemp σ'), Scope.tempsTo_nextTemp]
    exact List.mem_append_right _ (List.mem_singleton_self _)
  | @assigned σ σ' op t v vs code _ _ ih =>
    intro _ hn hc ht
    have hn := namesIn_one.mp hn
    have hvs := ih rfl (parts_names hn) hc ht
    rw [namesIn_children rfl (l := [t, v]) rfl, Node.namesAllIn_cons] at hn
    exact namesIn_one.mpr (placeFrom_names hn.1 hvs hc)
  | operandsNil => exact fun _ _ _ _ => Node.namesAllIn_nil
  | @operandsCons σ σ₁ σ₂ n v ns vs split split' code code' head tail ih ih' =>
    intro _ hn hc ht
    rw [head.grows.tempsTo_append tail.grows] at ht
    have hn := Node.namesAllIn_cons.mp hn
    refine Node.namesAllIn_cons.mpr ⟨namesIn_one.mp (ih rfl (namesIn_one.mpr hn.1) hc fun x hx =>
      ht x (List.mem_append_left _ hx)), ih' rfl hn.2 ?_ fun x hx =>
      ht x (List.mem_append_right _ hx)⟩
    rw [head.grows.container]
    exact hc
  | leads hl => cases hl <;> exact fun h => absurd h Bool.false_ne_true
  | void hv => cases hv <;> exact fun h => absurd h Bool.false_ne_true
  | _ => exact fun h => absurd h Bool.false_ne_true

/-- So do the places that an expression changes. -/
theorem AltersIn.named (h : AltersIn env σ σ' n g) (hn : n.NamesIn A) (hc : A σ.container)
    (ht : ∀ x ∈ σ.tempsTo σ', A x) : g.NamesIn A := by
  obtain ⟨m, hm, hg⟩ := h
  have hm : m.NamesIn A := fun x hx => hn x (names_subset (inspect_subset _ n hm) hx)
  cases hg with
  | change hr hp =>
    obtain ⟨σ₁, σ₂, vs, split, code, hσ, hσ', ops, rfl⟩ := hr
    have hc₁ : A σ₁.container := by
      rw [hσ.container]
      exact hc
    have hvs : NamesAllIn A vs := by
      refine ops.values_named rfl (parts_names hm) hc₁ fun x hx => ht x ?_
      rw [hσ.tempsTo_append (ops.grows.trans hσ'), ops.grows.tempsTo_append hσ']
      exact List.mem_append_right _ (List.mem_append_left _ hx)
    exact fun x hx => assemble_names hm hvs hc₁ x (names_changed hp hx)
  | @copied _ σ₁ _ hσ _ hp =>
    have hc₁ : A σ₁.container := by
      rw [hσ.container]
      exact hc
    exact fun x hx => copy_names hm hc₁ x (names_changedPlaces hp hx)

/-- Temps made one after the other are different. -/
theorem disjoint_tempsTo (h : σ.Grows σ₁) (h' : σ₁.Grows σ₂) :
    (σ.tempsTo σ₁).Disjoint (σ₁.tempsTo σ₂) := by
  have hnodup : (σ.tempsTo σ₂).Nodup :=
    List.Nodup.map (fun _ _ => σ.temp_injective) List.nodup_range'
  rw [h.tempsTo_append h'] at hnodup
  exact List.disjoint_of_nodup_append hnodup

/-! ## §2. Operands that are split. -/

/-- Operands walked one list after the other, taken apart again. -/
theorem Emits.operands_split {ms : List Node}
    (h : Emits env (.operands (ns ++ ms)) σ vs split code σ') :
    ∃ us ws before behind b c σ₁, Emits env (.operands ns) σ us b before σ₁ ∧
      Emits env (.operands ms) σ₁ ws c behind σ' ∧ vs = us ++ ws ∧ code = before ++ behind ∧
      split = (b || c) := by
  induction ns generalizing σ vs split code with
  | nil => exact ⟨[], vs, [], code, false, split, σ, .operandsNil, h, rfl, rfl, rfl⟩
  | cons n ns ih =>
    cases h with
    | operandsCons head tail =>
      obtain ⟨us, ws, before, behind, b, c, σ₁, hns, hms, rfl, rfl, rfl⟩ := ih tail
      refine ⟨_, ws, _, behind, _, c, σ₁, .operandsCons head hns, hms, rfl, ?_, ?_⟩
      · rw [List.append_assoc]
      · rw [Bool.or_assoc]
    | leads hl => cases hl
    | void hv => cases hv

/-- What stands for an expression that was split: a new temp, or what an assignment assigned to,
    with the values of its operands. -/
inductive Standing (env : Surface) (σ σ' : Scope) : Node → Node → Prop
  | temp {n : Node} {x : String} (isOther : ∀ op t v, n ≠ .assign op t v)
      (isNew : x ∈ σ.tempsTo σ') : Standing env σ σ' n (.name x)
  | target {op : String} {t v : Node} {vs : List Node} {split : Bool} {code : List Instr}
      {σ₁ : Scope} (ops : Emits env (.operands (placeParts t)) σ vs split code σ₁)
      (behind : σ₁.Grows σ') : Standing env σ σ' (.assign op t v) (placeFrom σ t vs)

theorem Emits.standing (h : Emits env (.expr n) σ [v] true code σ') : Standing env σ σ' n v := by
  have hlast {σ₁ σ₂ : Scope} (hσ : σ₁.Grows σ₂) : σ₂.nextTemp.1 ∈ σ₁.tempsTo σ₂.nextTemp.2 := by
    rw [hσ.tempsTo_append (Scope.grows_nextTemp σ₂), Scope.tempsTo_nextTemp]
    exact List.mem_append_right _ (List.mem_singleton_self _)
  cases h with
  | captured hf ops =>
    refine .temp (fun op t v hn => ?_) (hlast ops.grows)
    rw [hn] at hf
    rcases form_assign op t v with ha | ha <;> cases ha.symm.trans hf
  | called ops => exact .temp nofun (hlast ops.grows)
  | @assigned _ _ op t v vs code _ ops =>
    obtain ⟨us, ws, before, behind, b, c, σ₁, hplace, hvalue, rfl, -⟩ := Emits.operands_split ops
    rw [placeFrom_append hplace.operands_length]
    exact .target hplace hvalue.grows
  | leads hl => cases hl

/-- An operand that was split, in the code of its expression: behind the code of the operand and
    that of the operands behind it stands an instruction that uses the values of all operands. -/
inductive Consumed (env : Surface) (σ σ₁ σ₂ σ₃ : Scope) (n p : Node) (back : List Node) (w : Node)
    (between : List Instr) : List Instr → Prop
  | mk {before own rest : List Instr} {use : Instr} {us ws : List Node} {split : Bool}
      (front : σ.Grows σ₁) (operand : Emits env (.expr p) σ₁ [w] true own σ₂)
      (behind : Emits env (.operands back) σ₂ ws split between σ₃)
      (uses : use.Uses (assemble σ n (us ++ w :: ws))) :
      Consumed env σ σ₁ σ₂ σ₃ n p back w between (before ++ own ++ between ++ use :: rest)

/-- An operand with a call among others: it is split, and the code of those behind it is behind its
    own. -/
theorem Emits.operand_split {front back : List Node} {p : Node}
    (h : Emits env (.operands (front ++ p :: back)) σ vs split code σ')
    (hp : p.analysedCalls ≠ []) :
    ∃ us w ws before own between b σ₁ σ₂, σ.Grows σ₁ ∧ Emits env (.expr p) σ₁ [w] true own σ₂ ∧
      Emits env (.operands back) σ₂ ws b between σ' ∧ vs = us ++ w :: ws ∧
      code = before ++ own ++ between ∧ split = true := by
  obtain ⟨us, vs', before, _, b, _, σ₁, hfront, hrest, rfl, rfl, rfl⟩ := h.operands_split
  cases hrest with
  | @operandsCons _ σ₂ _ _ w _ ws c d own between head tail =>
    have hc : c = true := head.split_iff.mpr hp
    subst hc
    refine ⟨us, w, ws, before, own, between, d, σ₁, σ₂, hfront.grows, head, tail, rfl, ?_, ?_⟩
    · rw [List.append_assoc]
    · rw [Bool.true_or, Bool.or_true]
  | leads hl => cases hl
  | void hv => cases hv

/-- The code of an expression with an operand that is split. -/
theorem Emits.consumed {front back : List Node} {p : Node}
    (h : Emits env (.expr n) σ [v] split code σ') (hparts : parts n = front ++ p :: back)
    (hp : p.analysedCalls ≠ []) :
    ∃ σ₁ σ₂ σ₃ w between, Consumed env σ σ₁ σ₂ σ₃ n p back w between code := by
  have hnone : parts n ≠ [] := by
    rw [hparts]
    simp
  cases h with
  | reference x => exact absurd rfl hnone
  | literal hf => exact absurd (parts_of_copied (.inl hf)) hnone
  | copied hf => exact absurd (parts_of_copied (.inr hf)) hnone
  | kept hf ops =>
    rw [hparts] at ops
    obtain ⟨_, _, _, _, _, _, _, _, _, _, _, _, _, _, hsplit⟩ := ops.operand_split hp
    cases hsplit
  | captured hf ops =>
    rw [hparts] at ops
    obtain ⟨us, w, ws, before, own, between, b, σ₁, σ₂, hσ, hp, hback, rfl, rfl, -⟩ :=
      ops.operand_split hp
    exact ⟨σ₁, σ₂, _, w, between, .mk hσ hp hback (.inr ⟨_, rfl⟩)⟩
  | assigned ht ops =>
    rw [hparts] at ops
    obtain ⟨us, w, ws, before, own, between, b, σ₁, σ₂, hσ, hp, hback, rfl, rfl, -⟩ :=
      ops.operand_split hp
    exact ⟨σ₁, σ₂, _, w, between, .mk hσ hp hback (.inl ⟨_, _, rfl⟩)⟩
  | called ops =>
    rw [hparts] at ops
    obtain ⟨us, w, ws, before, own, between, b, σ₁, σ₂, hσ, hp, hback, rfl, rfl, -⟩ :=
      ops.operand_split hp
    exact ⟨σ₁, σ₂, _, w, between, .mk hσ hp hback (.inl ⟨_, _, rfl⟩)⟩
  | leads hl => cases hl
  | void hv => cases hv

section

variable {p : Node} {back : List Node} {σ₃ : Scope} {between : List Instr}

/-- What is changed before a value is used, and read in it, is changed by an operand behind. -/
theorem Consumed.kept (hret : env.returnValue.changedPlaces = [])
    (h : Consumed env σ σ₁ σ₂ σ₃ n p back w between code)
    (hg : g ∈ Instr.changedPlacesAll between) (hw : g ∈ w.everything) :
    (∃ q ∈ back, AltersIn env σ₂ σ₃ q g) ∨
      ∃ x ∈ σ₂.tempsTo σ₃, g = .name x ∧ (x ∈ p.names ∨ x = σ.container) := by
  cases h with
  | mk hσ hp hback huse =>
  rcases hback.places_altered hret rfl g (.inl hg) with ⟨x, hx, rfl⟩ | hsource
  · -- a later temp is read in the value only if the operand uses its name
    refine .inr ⟨x, hx, rfl, ?_⟩
    let A (y : String) : Prop := (y ∈ p.names ∨ y = σ.container) ∨ y ∈ σ₁.tempsTo σ₂
    have hnames : NamesAllIn A [w] :=
      hp.values_named rfl (namesIn_one.mpr fun y hy => .inl (.inl hy))
        (.inl (.inr hσ.container)) fun y hy => .inr hy
    rcases namesIn_one.mp hnames x (Node.mem_names_iff.mpr hw) with hx' | hx'
    · exact hx'
    · exact absurd hx (disjoint_tempsTo hp.grows hback.grows hx')
  · exact .inl hsource

/-- A temp keeps its value, unless an operand behind uses its name. -/
theorem Consumed.temp_kept (hret : env.returnValue.changedPlaces = [])
    (h : Consumed env σ σ₁ σ₂ σ₃ n p back w between code)
    (hother : ∀ op t v, p ≠ .assign op t v)
    (hg : g ∈ Instr.changedPlacesAll between) (hw : g ∈ w.everything) :
    ∃ x ∈ σ₁.tempsTo σ₂, g = .name x ∧ ((∃ q ∈ back, x ∈ q.names) ∨ x = σ.container) := by
  cases h with
  | mk hσ hp hback huse =>
  cases hp.standing with
  | target => exact absurd rfl (hother _ _ _)
  | @temp _ x _ hnew =>
  have hgx : g = .name x := List.mem_singleton.mp hw
  have hfresh := disjoint_tempsTo hp.grows hback.grows hnew
  refine ⟨x, hnew, hgx, ?_⟩
  rw [hgx] at hg
  rcases hback.places_altered hret rfl _ (.inl hg) with ⟨y, hy, hxy⟩ | ⟨q, hq, hsource⟩
  · cases hxy
    exact absurd hy hfresh
  · let A (y : String) : Prop := (y ∈ q.names ∨ y = σ.container) ∨ y ∈ σ₂.tempsTo σ₃
    have hnames := hsource.named (A := A) (fun y hy => .inl (.inl hy))
      (.inl (.inr (hσ.trans hp.grows).container)) fun y hy => .inr hy
    rcases namesIn_name.mp hnames with (hx | hx) | hx
    · exact .inl ⟨q, hq, hx⟩
    · exact .inr hx
    · exact absurd hx hfresh

end

end

end Walk

/-! ## §3. Expressions. -/

/-- A dotted path changes nothing, nor does anything in it. -/
theorem Naming.dotted_changedPlaces (path : String) :
    (Naming.dotted path).changedPlaces = [] := by
  refine dotted_of (P := fun _ n => n.changedPlaces = []) path ?_ fun _ _ n f h => ?_
  · exact fun x => Node.changedPlaces_leaf rfl rfl rfl
  · refine List.eq_nil_iff_forall_not_mem.mpr fun g hg => ?_
    rw [Node.mem_changedPlaces rfl (l := [n]) rfl] at hg
    simp [Node.changed?, h] at hg

/-- An operand that was split, and what stands for its value until the instruction of its expression
    uses it.  What the code in between changes is not read in the value, unless something in an
    operand behind changes that place, or the operand uses the generated name of a later temp.  If
    the operand is no assignment, its value is a temp, which is changed in between only where an
    operand behind uses the name of that temp. -/
def KeepsValue (env : Surface) (s s' : State) (n p : Node) (back : List Node) : Prop :=
  ∃ code σ₁ σ₂ σ₃ w between,
    s.frames.Extends s'.frames code ∧
    Walk.Consumed env s.scope σ₁ σ₂ σ₃ n p back w between code ∧
    Walk.Standing env σ₁ σ₂ p w ∧
    (∀ g ∈ Instr.changedPlacesAll between, g ∈ w.everything →
      (∃ q ∈ back, Walk.AltersIn env σ₂ σ₃ q g) ∨
      ∃ x ∈ σ₂.tempsTo σ₃, g = .name x ∧ (x ∈ p.names ∨ x = s.scope.container)) ∧
    ((∀ op t v, p ≠ .assign op t v) → ∀ g ∈ Instr.changedPlacesAll between, g ∈ w.everything →
      ∃ x ∈ σ₁.tempsTo σ₂, g = .name x ∧ ((∃ q ∈ back, x ∈ q.names) ∨ x = s.scope.container))

/-- Every split operand of an expression keeps its value until it is used, as far as the operands
    behind it do not change what stands for the value. -/
theorem expr_keeps_values (naming : Naming) (isAsync : String → Bool) (n v : Node) (split : Bool)
    (s s' : State) (h : Walk.expr (naming.surface isAsync) n s = (.ok (v, split), s'))
    (front back : List Node) (p : Node) (hparts : Walk.parts n = front ++ p :: back)
    (hp : p.analysedCalls ≠ []) : KeepsValue (naming.surface isAsync) s s' n p back := by
  obtain ⟨code, emits, extends_, -⟩ := Walk.expr_yields h
  obtain ⟨σ₁, σ₂, σ₃, w, between, hconsumed⟩ := emits.consumed hparts hp
  have hstanding : Walk.Standing (naming.surface isAsync) σ₁ σ₂ p w := by
    cases hconsumed with
    | mk _ hp => exact hp.standing
  have hret := Naming.dotted_changedPlaces naming.returnValue
  exact ⟨code, σ₁, σ₂, σ₃, w, between, extends_, hconsumed, hstanding,
    fun g => hconsumed.kept hret, fun hother g => hconsumed.temp_kept hret hother⟩

/-- An assignment that is split between two other operands, the one behind with a change of its own:
    `f(x, a[g(x)] = h(y), k(i++))`. -/
theorem expr_keeps_values_of_call :
    let call (f : String) (as : List Node) : Node := .call (.name f) as
    let p : Node := .assign "" (.sub (.name "a") (call "g" [.name "x"])) (call "h" [.name "y"])
    let back : List Node := [call "k" [.unary .after "++" (.name "i")]]
    let n : Node := call "f" (.name "x" :: p :: back)
    let env : Surface := Naming.surface {} fun _ => false
    let s : State := { scope := Naming.scope {} [] }
    ∃ v split s', Walk.expr env n s = (.ok (v, split), s') ∧
      Walk.parts n = [.name "f", .name "x"] ++ p :: back ∧ p.analysedCalls ≠ [] ∧
      KeepsValue env s s' n p back := by
  intro call p back n env s
  have hok : (Walk.expr env n s).1.isOk = true := by decide +kernel
  cases hrun : Walk.expr env n s with
  | mk r s' =>
  rw [hrun] at hok
  obtain ⟨⟨v, split⟩, rfl⟩ := exists_of_isOk hok
  have hparts : Walk.parts n = [.name "f", .name "x"] ++ p :: back := by
    simp [n, call, Walk.parts, Walk.calleeParts, Walk.isMember]
  have hp : p.analysedCalls ≠ [] := by
    rw [Walk.analysedCalls_parts (.inr rfl)]
    simp [p, call, Walk.parts, Walk.placeParts, Walk.analysedCalls_call]
  exact ⟨v, split, s', rfl, hparts, hp,
    expr_keeps_values {} (fun _ => false) n v split s s' hrun _ back p hparts hp⟩

/-- Whether a program sets `x` to what `f` and then to what `g` returns, and adds it to itself. -/
def addsToItself : List Instr → Bool
  | [.leaf "call" (.stat (.call (.name "f") [])) false,
      .leaf "stat" (.stat (.assign "" _ _)) false,
      .leaf "stat" (.stat (.assign "" (.name "x") _)) false,
      .leaf "call" (.stat (.call (.name "g") [])) false,
      .leaf "stat" (.stat (.assign "" _ _)) false,
      .leaf "stat" (.stat (.assign "" (.name "x") _)) false,
      .leaf "stat" (.stat (.assign "" _ (.binary "+" (.name "x") (.name "x")))) false] => true
  | _ => false

/-- `(x = f()) + (x = g())` adds the second value to itself: the code of the right operand changes
    what stands for the left one. -/
theorem transform_reads_changed_target :
    let assign (f : String) : Node := .assign "" (.name "x") (.call (.name f) [])
    let unit : Node := .toplevel [.stat (.binary "+" (assign "f") (assign "g"))]
    ∃ t temp returned left temp' returned' right sum,
      (transform {} (fun _ => false) unit).1 = .ok t ∧
      let call (f : String) : Instr := .leaf "call" (.stat (.call (.name f) [])) false
      let between : List Instr := [call "g", .set temp' returned', .set (.name "x") right]
      t.program = [call "f", .set temp returned, .set (.name "x") left] ++ between ++
        [.set sum (.binary "+" (.name "x") (.name "x"))] ∧
      .name "x" ∈ Instr.changedPlacesAll between := by
  intro assign unit
  obtain ⟨t, ht, hshape⟩ := exists_of_okAnd (r := (transform {} (fun _ => false) unit).1)
    (fun t => addsToItself t.program) (by decide +kernel)
  unfold addsToItself at hshape
  split at hshape
  case h_2 => cases hshape
  case h_1 temp returned left temp' returned' right sum hprogram =>
  refine ⟨t, temp, returned, left, temp', returned', right, sum, ht, hprogram, ?_⟩
  rw [show ∀ a b c : Instr, [a, b, c] = [a, b] ++ [c] from fun _ _ _ => rfl,
    Instr.changedPlacesAll_append]
  exact List.mem_append_right _ (Instr.mem_changedPlaces_set.mpr (.inl rfl))

end Resumable.Program
