/-
  Resumable.Proofs.Changes.Programs — how often a program makes the changes of its unit.

  A program makes every change of its unit once, with its operands rewritten.  Besides, it sets each
  temp once, and the field of each name that is bound: once more, to null, in front of a value that
  is split.  And it makes some changes once more: those in the operands of what a split assignment
  assigns to, if the value of that assignment is used.

  Main statements: `transform_makes_changes`, and `transform_repeats_change` for an assignment whose
  value is assigned.
-/
import Resumable.Proofs.Changes.Values
import Resumable.Proofs.Walk.Dotted
import Resumable.Proofs.Walk.Names

namespace Resumable.Program

open Node (change changes changesAll changesAll_cons changesAll_nil changesAll_one
  changes_children changes_whole repeats pieces piecesAll bindingPieces)
open Piece (repeatsAll fieldsAll)

namespace Walk

section

variable {env : Surface} {job job' : Job} {σ σ' σ₁ σ₂ : Scope} {n v : Node} {ns vs : List Node}
  {split : Bool} {code xs ys : List Instr} {s s' : Multiset Node} {ps qs : List Piece}

/-! ## §1. Statements. -/

/-- The pieces of a job. -/
def Job.pieces : Job → List Piece
  | .effect n | .step n => [.effect n]
  | .test n => [.value n]
  | .stmt n | .region n => n.pieces
  | .stmts ns => piecesAll ns
  | .bindings ds => bindingPieces ds
  | .expr _ | .operands _ => []

theorem pieces_of_isExpression (h : n.isExpression = true) : n.pieces = [.effect n] := by
  cases n with
  | absent | stat _ | var _ | block _ | splice _ | ifElse _ _ _ | forLoop _ _ _ _ | defun _ _ _ =>
    cases h
  | _ => exact if_pos h

theorem pieces_of_isPassed (h : isPassed n = true) : n.pieces = [] := by
  cases n <;> cases h <;> rfl

theorem Job.Leads.pieces (h : job.Leads job') : job.pieces = job'.pieces := by
  cases h with
  | expression hn => exact pieces_of_isExpression hn
  | stat _ | var _ | block _ | splice _ => simp only [Job.pieces, Node.pieces]
  | region | step => rfl

theorem Job.Leads.changes (h : job.Leads job') : changesAll job.nodes = changesAll job'.nodes := by
  cases h with
  | expression | region | step => rfl
  | stat e => exact (changesAll_one _).trans (changes_children rfl rfl rfl (l := [e]) rfl)
  | var _ | block _ | splice _ => exact (changesAll_one _).trans (changes_children rfl rfl rfl rfl)

theorem changes_of_isPassed (h : isPassed n = true) : n.changes = 0 := by
  cases n with
  | breakTo _ | continueTo _ | debugger =>
    exact (Node.total_leaf rfl rfl).trans (Node.change_of_not rfl)
  | label _ _ | whileLoop _ _ | doLoop _ _ | tryCatch _ _ _ | throw _ | switch _ _ | forIn _ _ _
  | withObject _ _ | ret _ | const _ => exact changes_whole rfl
  | _ => cases h

/-- What the code of a source with some pieces does. -/
def Made (env : Surface) (σ σ' : Scope) (source : Multiset Node) (ps : List Piece)
    (code : List Instr) : Prop :=
  Spread env σ σ' source (repeatsAll ps) (made σ σ' + fieldsAll σ.container ps)
    (Instr.changesAll code)

theorem Made.none (hx : Instr.changesAll xs = 0) (hσ : σ.Declares σ') :
    Made env σ σ' 0 [] xs :=
  Spread.zero.congr rfl rfl (by rw [made_declares hσ]; rfl) hx

/-- Code made one after the other. -/
theorem Made.append (h : Made env σ σ₁ s ps xs) (h' : Made env σ₁ σ₂ s' qs ys) (hσ : σ.Grows σ₁)
    (hσ' : σ₁.Grows σ₂) : Made env σ σ₂ (s + s') (ps ++ qs) (xs ++ ys) := by
  unfold Made at *
  rw [hσ.container] at h'
  refine (h.append h' hσ hσ').congr rfl (Piece.repeatsAll_append _ _) ?_
    (Instr.changesAll_append _ _)
  rw [made_append hσ hσ', Piece.fieldsAll_append]
  abel

/-- An instruction that holds code and changes nothing itself. -/
theorem Made.hold {i : Instr} (hi : i.changes = 0) (h : Made env σ σ' s ps i.inner) :
    Made env σ σ' s ps [i] := by
  refine Spread.congr h rfl rfl rfl ?_
  rw [Instr.changesAll_single, hi, zero_add]

/-- Other code that does the same. -/
theorem Made.congr (h : Made env σ σ' s ps xs) (hs : s' = s) (hp : qs = ps)
    (hx : Instr.changesAll ys = Instr.changesAll xs) : Made env σ σ' s' qs ys := by
  rw [hs, hp]
  exact Spread.congr h rfl rfl rfl hx

/-- An expression whose value stands at the end of its code. -/
theorem value_made (henv : env.returnValue.hasCall = false)
    (hret : env.returnValue.changes = 0) (h : Emits env (.expr n) σ [v] split code σ')
    (hx : Instr.changesAll xs = Instr.changesAll code + v.changes) :
    Made env σ σ' n.changes [.value n] xs := by
  refine (value_spread henv h (h.spreads henv hret)).congr rfl ?_ (add_zero _) hx
  rw [Piece.repeatsAll_cons, Piece.repeatsAll_nil, add_zero]
  rfl

/-- An expression whose value is used only if nothing was split. -/
theorem effect_made (henv : env.returnValue.hasCall = false)
    (hret : env.returnValue.changes = 0) (h : Emits env (.expr n) σ [v] split code σ') :
    Made env σ σ' n.changes [.effect n] (code ++ unsplitStat split v) := by
  refine (h.spreads henv hret).1.congr rfl ?_ (add_zero _) ?_
  · rw [Piece.repeatsAll_cons, Piece.repeatsAll_nil, add_zero]
    rfl
  · rw [Instr.changesAll_append]
    cases split with
    | true => rfl
    | false =>
      show _ + Instr.changesAll [.stat v] = _ + changesAll [v]
      rw [Instr.changesAll_stat, changesAll_one]

/-- A name without a value is bound to null. -/
theorem bare_made (x : String) :
    Made env σ (σ.declare x) 0 [.binding x .absent] [.set (σ.field x) .null] := by
  have hx := Scope.declares_declare σ x
  refine (Spread.set (σ.field x) .null).congr rfl rfl ?_ ?_
  · rw [made_declares hx, zero_add, Piece.fieldsAll_cons, Piece.fieldsAll_nil, add_zero]
    rfl
  · rw [Instr.changesAll_set (changes_field σ x), Node.changes, Node.total_leaf rfl rfl,
      Node.change_of_not rfl, zero_add]

/-- A name is bound to a value, and to null before if the value is split. -/
theorem bound_made (henv : env.returnValue.hasCall = false)
    (hret : env.returnValue.changes = 0) {x : String}
    (h : Emits env (.expr n) (σ.declare x) [v] split code σ') :
    Made env σ σ' n.changes [.binding x n]
      (placeholder split (σ.field x) ++ code ++ [.set (σ.field x) v]) := by
  have hx := Scope.declares_declare σ x
  have hcall := h.hasCall_eq henv
  have hnull : Node.null.changes = 0 :=
    (Node.total_leaf rfl rfl).trans (Node.change_of_not rfl)
  have hvalue := (value_spread henv h (h.spreads henv hret)).widen hx.toGrows (.refl σ')
  have hmade : made σ σ' = made (σ.declare x) σ' := by
    rw [made_append hx.toGrows h.grows, made_declares hx, zero_add]
  have hset := hvalue.add (.set (σ.field x) v)
  have hrepeats : repeatsAll [.binding x n] = Node.total repeats n :=
    (Piece.repeatsAll_cons _ _).trans (add_zero _)
  unfold Made
  rw [hmade, hrepeats, Piece.fieldsAll_cons, Piece.fieldsAll_nil, add_zero, Piece.fields, ← hcall,
    Instr.changesAll_append, Instr.changesAll_append, Instr.changesAll_set (changes_field σ x)]
  cases split with
  | false =>
    refine hset.congr (add_zero _).symm (add_zero _).symm rfl ?_
    show 0 + _ + _ = _
    rw [zero_add, add_assoc]
  | true =>
    -- the null in front sets the field once more
    refine (hset.add (.set (σ.field x) .null)).congr ?_ ?_ ?_ ?_
    · rw [add_zero, add_zero]
    · rw [add_zero, add_zero]
    · rw [add_assoc]
      rfl
    · rw [placeholder, if_pos rfl, Instr.changesAll_set (changes_field σ x), hnull]
      abel

/-- A walk of a statement makes the changes of its source. -/
theorem Emits.made (henv : env.returnValue.hasCall = false)
    (hret : env.returnValue.changes = 0) (h : Emits env job σ vs split code σ') :
    job.isValue = false → Made env σ σ' (changesAll job.nodes) job.pieces code := by
  induction h with
  | effect value =>
    intro _
    rw [Job.nodes, changesAll_one]
    exact effect_made henv hret value
  | test value =>
    intro _
    rw [Job.nodes, changesAll_one]
    refine value_made henv hret value ?_
    rw [Instr.changesAll_append, Instr.changesAll_leaf]
  | leads hl _ ih =>
    intro _
    rw [hl.pieces, hl.changes]
    exact ih (by cases hl <;> rfl)
  | @void σ job hv =>
    intro _
    have hnone : Made env σ σ 0 [] [] := .none rfl (.refl σ)
    cases hv with
    | region =>
      refine hnone.congr rfl ?_ rfl
      simp [Job.pieces, pieces, Node.isExpression, Node.kind?]
    | test | step => exact Spread.congr hnone rfl rfl rfl rfl
  | @branch σ σ₁ σ₂ σ₃ c v yes no ys ns cs ysp nsp code yl nl cond yesDone noDone _ ih₁ ih₂ =>
    intro _
    have hregions := (ih₁ rfl).append (ih₂ rfl) yesDone.grows noDone.grows
    -- the condition is read by the instruction of the branch
    have hcond : Made env σ σ₁ c.changes [.value c] (code ++ [.stat v]) := by
      refine value_made henv hret cond ?_
      rw [Instr.changesAll_append, Instr.changesAll_stat]
    refine (hcond.append hregions cond.grows (yesDone.grows.trans noDone.grows)).congr ?_ ?_ ?_
    · rw [Job.nodes, changesAll_one, changes_children rfl rfl rfl (l := [c, yes, no]) rfl]
      simp [Job.nodes]
    · simp only [Job.pieces, pieces, List.singleton_append]
    · rw [Instr.changesAll_append, Instr.changesAll_append, Instr.changesAll_append,
        Instr.changesAll_stat, Instr.changesAll_single, add_assoc]
      rfl
  | @loop σ σ₁ σ₂ σ₃ σ₄ init cond step body c e is bs isp csp ssp bsp il tl sl bl initDone testDone
      stepDone bodyDone ih ih₁ ih₂ ih₃ =>
    intro _
    have hahead := testDone.grows.trans stepDone.grows
    have hparts := ((ih₁ rfl).append (ih₂ rfl) testDone.grows stepDone.grows).append (ih₃ rfl)
      hahead bodyDone.grows
    have hloop := Made.hold (i := .loop c tl sl bl csp (if ssp then .absent else e)) rfl hparts
    refine ((ih rfl).append hloop initDone.grows (hahead.trans bodyDone.grows)).congr ?_ ?_ rfl
    · rw [Job.nodes, changesAll_one,
        changes_children rfl rfl rfl (l := [init, cond, step, body]) rfl]
      simp only [Job.nodes, changesAll_cons, changesAll_nil, add_zero]
      abel
    · simp [Job.pieces, pieces]
  | @declaration σ σ' name params ns vs split list body ih =>
    intro _
    refine (Made.hold (i := .defun name params list) rfl (ih rfl)).congr ?_ ?_ rfl
    · exact (changesAll_one _).trans (changes_children rfl rfl rfl rfl)
    · simp only [Job.pieces, pieces]
  | passed hp =>
    -- what is copied as a whole counts neither in the source nor in the program
    intro _
    refine (Made.none ?_ (declares_copyScope _ _)).congr ?_ (pieces_of_isPassed hp) rfl
    · rw [Instr.changesAll_leaf, changes_of_isPassed (isPassed_copy hp).1]
    · rw [Job.nodes, changesAll_one, changes_of_isPassed hp]
  | stmtsNil =>
    intro _
    exact (Made.none rfl (.refl _)).congr rfl (by simp only [Job.pieces, piecesAll]) rfl
  | stmtsCons head tail ih ih' =>
    intro _
    refine ((ih rfl).append (ih' rfl) head.grows tail.grows).congr ?_ ?_ rfl
    · rw [Job.nodes, Job.nodes, Job.nodes, changesAll_one, changesAll_cons]
    · simp only [Job.pieces, piecesAll]
  | bindingsNil => exact fun _ => Made.none rfl (.refl _)
  | @bare σ σ' x ds vs split code rest ih =>
    intro _
    have hx := (Scope.declares_declare σ x).toGrows
    refine ((bare_made x).append (ih rfl) hx rest.grows).congr ?_ rfl rfl
    rw [Job.nodes, List.map_cons, changesAll_cons]
    rfl
  | @bound σ σ₁ σ₂ x init v ds vs split split' code code' value rest _ ih' =>
    intro _
    have hx := (Scope.declares_declare σ x).toGrows
    refine ((bound_made henv hret value).append (ih' rfl) (hx.trans value.grows) rest.grows).congr
      ?_ rfl ?_
    · rw [Job.nodes, List.map_cons, changesAll_cons]
      rfl
    · rw [List.append_assoc _ [_], List.singleton_append]
  | _ => exact fun h => absurd h.symm Bool.false_ne_true

end

end Walk

/-! ## §2. Whole programs. -/

/-- A dotted path changes nothing. -/
theorem Naming.dotted_changes (path : String) : (Naming.dotted path).changes = 0 := by
  refine dotted_of (P := fun _ n => n.changes = 0) path Node.changes_name fun _ _ n f h => ?_
  rw [changes_children rfl rfl rfl (l := [n]) rfl, changesAll_one, h]

/-- The changes in the payloads and conditions of a program are those of its unit, each once with
    its operands rewritten; those that the used values of split assignments make once more; and
    assignments to the temps, to each once, and to the fields of the names that are bound. -/
theorem transform_makes_changes (naming : Naming) (isAsync : String → Bool) (unit : Node)
    (t : Transformed) (h : (transform naming isAsync unit).1 = .ok t) :
    ∃ body σ, unit = .toplevel body ∧ t.Derived naming isAsync body σ ∧
      ∃ own more added : Multiset Node,
        Instr.changesAll t.program = own + more + added ∧
        Multiset.Rel (Walk.Rewritten (naming.surface isAsync) (naming.scope body) σ)
          unit.changes own ∧
        Multiset.Rel (Walk.Rewritten (naming.surface isAsync) (naming.scope body) σ)
          (repeatsAll (piecesAll body)) more ∧
        Multiset.Rel Walk.Sets
          (((List.range t.stats.temps).map fun k => .name (naming.stem ++ toString k) : List Node) +
            fieldsAll naming.container (piecesAll body)) added := by
  obtain ⟨body, σ, rfl, hd⟩ := transform_emits h
  obtain ⟨vs, split, he⟩ := hd.emits
  have hstart := naming.declares_scope body
  have hmade := he.made (Naming.dotted_hasCall naming.returnValue)
    (Naming.dotted_changes naming.returnValue) rfl
  -- a walk starts without temps
  have htemps : Walk.made (naming.scope body) σ =
      ((List.range t.stats.temps).map fun k => .name (naming.stem ++ toString k) : List Node) := by
    unfold Walk.made Scope.tempsTo Scope.temp
    rw [hstart.sameTemps, hstart.stem, hd.stats, List.range_eq_range', List.map_map]
    rfl
  unfold Walk.Made Walk.Spread at hmade
  rw [htemps, hstart.container] at hmade
  obtain ⟨own, more, added, hall, hown, hmore, hadded⟩ := hmade
  refine ⟨body, σ, rfl, hd, own, more, added, hall, ?_, hmore, hadded⟩
  rw [changes_children rfl rfl rfl rfl]
  exact hown

/-- A binding, a loop, a change in what is assigned to and an assignment whose value is used:
    `for (var i = f(); i < g(); i++) { a[j--] = h(i); delete o[i]; y = a[x++] = f(); }`. -/
theorem transform_makes_changes_of_loop :
    let call (f : String) (as : List Node) : Node := .call (.name f) as
    let unit : Node := .toplevel [.forLoop (.var [("i", call "f" [])])
      (.binary "<" (.name "i") (call "g" [])) (.unary .after "++" (.name "i"))
      (.block [.stat (.assign "" (.sub (.name "a") (.unary .after "--" (.name "j")))
          (call "h" [.name "i"])),
        .stat (.unary .before "delete" (.sub (.name "o") (.name "i"))),
        .stat (.assign "" (.name "y") (.assign "" (.sub (.name "a")
          (.unary .after "++" (.name "x"))) (call "f" [])))])]
    ∃ t, (transform {} (fun _ => false) unit).1 = .ok t ∧
      ∃ body σ, unit = .toplevel body ∧ t.Derived {} (fun _ => false) body σ ∧
        ∃ own more added : Multiset Node,
          Instr.changesAll t.program = own + more + added ∧
          Multiset.Rel (Walk.Rewritten (Naming.surface {} (fun _ => false))
            (Naming.scope {} body) σ) unit.changes own ∧
          Multiset.Rel (Walk.Rewritten (Naming.surface {} (fun _ => false))
            (Naming.scope {} body) σ) (repeatsAll (piecesAll body)) more ∧
          Multiset.Rel Walk.Sets
            (((List.range t.stats.temps).map fun k => .name ("__DrutaTemp_" ++ toString k) :
              List Node) + fieldsAll "$$locals" (piecesAll body)) added := by
  intro call unit
  obtain ⟨t, ht⟩ : ∃ t, (transform {} (fun _ => false) unit).1 = .ok t :=
    exists_of_isOk (by decide +kernel)
  exact ⟨t, ht, transform_makes_changes {} (fun _ => false) unit t ht⟩

/-- An assignment of a split assignment, `y = a[x++] = f()`.  The source has one `++` and the
    program two. -/
theorem transform_repeats_change :
    let unit : Node := .toplevel [.stat (.assign "" (.name "y")
      (.assign "" (.sub (.name "a") (.unary .after "++" (.name "x"))) (.call (.name "f") [])))]
    let increments (ms : Multiset Node) : Nat := ms.countP fun m => m.tag = "unary-postfix"
    ∃ t, (transform {} (fun _ => false) unit).1 = .ok t ∧
      increments unit.changes = 1 ∧ increments (Instr.changesAll t.program) = 2 := by
  intro unit increments
  let temp : Node := .name "__DrutaTemp_0"
  let place : Node := .sub (.name "a") (.unary .after "++" (.name "x"))
  -- what was assigned to is assigned to `y` as it is
  let before : List Instr := [.leaf "call" (.stat (.call (.name "f") [])) false]
  let after : List Instr := [.set place temp, .set (.name "y") place]
  obtain ⟨t, ht, hprogram⟩ : ∃ t, (transform {} (fun _ => false) unit).1 = .ok t ∧
      t.program = before ++ [.set temp (Naming.dotted "self.returnValue")] ++ after :=
    ⟨_, rfl, rfl⟩
  have hadd : ∀ ms ns, increments (ms + ns) = increments ms + increments ns :=
    fun ms ns => Multiset.countP_add _ ms ns
  have hbefore : increments (Instr.changesAll before) = 0 := by decide +kernel
  have hafter : increments (Instr.changesAll after) = 2 := by decide +kernel
  have hcapture : increments {.assign "" temp (Naming.dotted "self.returnValue")} = 0 := by
    decide +kernel
  refine ⟨t, ht, by decide +kernel, ?_⟩
  rw [hprogram, Instr.changesAll_append, Instr.changesAll_append,
    Instr.changesAll_set (Node.changes_name _), Naming.dotted_changes, zero_add, hadd, hadd,
    hbefore, hcapture, hafter]

end Resumable.Program
