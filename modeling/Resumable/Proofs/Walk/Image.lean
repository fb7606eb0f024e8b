/-
  Resumable.Proofs.Walk.Image — a unit without calls passes through.

  `image` turns a statement into instructions without a walk: an expression statement, a `var`
  binding and a statement that is not looked into become one instruction each, a branch, a loop and
  a function declaration become one that holds the images of their parts, and blocks are taken
  apart.  References to declared names are redirected and nothing else changes.

  The scope does not change on the way if every `var` stands in a statement position, because all
  names of the unit are then known from the beginning (`Job.Known`).  So the image needs one scope
  only, and a walk of a source without calls gives the image of it (`Emits.imaged`).

  Main statement: `transform_passes_through`.
-/
import Resumable.Proofs.Scope.Mentions
import Resumable.Proofs.Scope.Placement
import Resumable.Proofs.Walk.Unsplit

namespace Resumable.Program

namespace Instr

/-- The shape of a branch as a number; anything else has none. -/
def bits : Instr → Nat
  | branch _ _ _ _ shape _ _ => shape.bits
  | _ => 0

/-- An instruction that does not suspend and, if it is a branch, has no part that was split. -/
def Whole (i : Instr) : Prop := i.async = false ∧ i.bits = 0

end Instr

namespace Walk

open Node (placed placedAll placedFields vars varsAll outerNames_placed analysedCalls)
open Instr (Every Whole every_append every_single every_nil)

/-! ## §1. Images. -/

/-- The image of a `var` binding; one without a value gets null. -/
def bindingImage (σ : Scope) (d : String × Node) : Instr :=
  .set (σ.field d.1) (if d.2.isAbsent then .null else copy σ d.2)

/-- The image of the condition of a loop. -/
def testImage (σ : Scope) (n : Node) : List Instr :=
  if n.isAbsent then [] else [.leaf "test" (copy σ n) false]

/-- The image of the step of a loop. -/
def stepImage (σ : Scope) (n : Node) : List Instr :=
  if n.isAbsent then [] else [.stat (copy σ n)]

mutual

/-- The instructions that a statement without calls becomes. -/
def image (σ : Scope) : Node → List Instr
  | .absent => []
  | .stat e => [.stat (copy σ e)]
  | .var ds => ds.map (bindingImage σ)
  | .block b => imageAll σ b
  | .splice ns => imageAll σ ns
  | .ifElse c y n => [.branch (copy σ c) (image σ y) (image σ n) (!n.isAbsent) {} none none]
  | .forLoop i c s b =>
      image σ i ++ [.loop (copy σ c) (testImage σ c) (stepImage σ s) (image σ b) false (copy σ s)]
  | .defun f ps b => [.defun f ps (imageAll σ b)]
  | n => if n.isExpression then [.stat (copy σ n)] else [.leaf n.tag (copy σ n) false]

/-- The instructions that statements without calls become. -/
def imageAll (σ : Scope) : List Node → List Instr
  | [] => []
  | n :: rest => image σ n ++ imageAll σ rest

end

section

variable {env : Surface} {job job' : Job} {σ σ' : Scope} {n : Node} {ns vs : List Node}
  {split : Bool} {code : List Instr}

theorem image_of_isExpression (h : n.isExpression = true) : image σ n = [.stat (copy σ n)] := by
  cases n with
  | absent | stat _ | var _ | block _ | splice _ | ifElse _ _ _ | forLoop _ _ _ _ | defun _ _ _ =>
    cases h
  | _ => exact if_pos h

theorem image_of_isPassed (h : isPassed n = true) :
    image σ n = [.leaf n.tag (copy σ n) false] := by
  cases n <;> cases h <;> rfl

theorem whole_leaf (command : String) (c : Node) : Every Whole [.leaf command c false] :=
  every_single.mpr ⟨⟨rfl, rfl⟩, every_nil⟩

theorem whole_bindings (ds : List (String × Node)) : Every Whole (ds.map (bindingImage σ)) := by
  induction ds with
  | nil => exact every_nil
  | cons d ds ih => exact (whole_leaf _ _).cons ih

mutual

/-- Nothing suspends in an image, and no part of a branch counts as split. -/
theorem whole_image (n : Node) : Every Whole (image σ n) := by
  cases n with
  | absent =>
    rw [image]
    exact every_nil
  | stat e =>
    rw [image]
    exact whole_leaf _ _
  | var ds =>
    rw [image]
    exact whole_bindings ds
  | block b | splice b =>
    rw [image]
    exact whole_imageAll b
  | ifElse c y m =>
    rw [image]
    exact every_single.mpr ⟨⟨rfl, rfl⟩, every_append.mpr ⟨whole_image y, whole_image m⟩⟩
  | forLoop i c s b =>
    have htest : Every Whole (testImage σ c) := by
      unfold testImage
      split
      · exact every_nil
      · exact whole_leaf _ _
    have hstep : Every Whole (stepImage σ s) := by
      unfold stepImage
      split
      · exact every_nil
      · exact whole_leaf _ _
    rw [image]
    refine every_append.mpr ⟨whole_image i, every_single.mpr ⟨⟨rfl, rfl⟩, ?_⟩⟩
    exact every_append.mpr ⟨every_append.mpr ⟨htest, hstep⟩, whole_image b⟩
  | defun f ps b =>
    rw [image]
    exact every_single.mpr ⟨⟨rfl, rfl⟩, whole_imageAll b⟩
  | unary side _ _ =>
    -- the kind of a unary expression is known once its side is
    cases side with
    | before | after => exact whole_leaf _ _
  | _ => exact whole_leaf _ _
termination_by structural n

theorem whole_imageAll (ns : List Node) : Every Whole (imageAll σ ns) := by
  cases ns with
  | nil =>
    rw [imageAll]
    exact every_nil
  | cons n ns =>
    rw [imageAll]
    exact every_append.mpr ⟨whole_image n, whole_imageAll ns⟩
termination_by structural ns

end

/-! ## §2. Scopes that know all names. -/

/-- Every `var` of a job stands in a statement position, and what those outside function literals
    bind is declared. -/
def Job.Known (σ : Scope) : Job → Prop
  | .expr n | .effect n | .test n | .step n => n.placed false = true
  | .operands ns => placedAll false ns = true
  | .stmt n | .region n => n.placed true = true ∧ n.vars ⊆ σ.names
  | .stmts ns => placedAll true ns = true ∧ varsAll ns ⊆ σ.names
  | .bindings ds => placedFields ds = true ∧ ds.map (·.1) ⊆ σ.names

/-- An expression is no statement position of its own. -/
theorem placed_of_isExpression {s : Bool} (h : n.isExpression = true) (hp : n.placed s = true) :
    n.placed false = true := by
  cases n with
  | absent | stat _ | var _ | const _ | block _ | ifElse _ _ _ | forLoop _ _ _ _ | forIn _ _ _
  | whileLoop _ _ | doLoop _ _ | breakTo _ | continueTo _ | debugger | label _ _ | ret _ | throw _
  | tryCatch _ _ _ | switch _ _ | withObject _ _ | defun _ _ _ | toplevel _ | splice _ => cases h
  | _ => exact hp

theorem Job.Known.leads (h : job.Known σ) (hl : job.Leads job') : job'.Known σ := by
  cases hl with
  | expression hn => exact placed_of_isExpression hn h.1
  | stat e =>
    obtain ⟨hp, -⟩ := h
    rw [placed] at hp
    exact hp
  | var ds =>
    obtain ⟨hp, hv⟩ := h
    rw [placed, Bool.true_and] at hp
    rw [vars] at hv
    exact ⟨hp, hv⟩
  | block ns | splice ns =>
    obtain ⟨hp, hv⟩ := h
    rw [placed] at hp
    rw [vars] at hv
    exact ⟨hp, hv⟩
  | region | step => exact h

/-- Nothing is left to declare where all names are known. -/
theorem copyScope_known {s : Bool} (hp : n.placed s = true) (hv : s = true → n.vars ⊆ σ.names) :
    copyScope σ n = σ := by
  refine copyScope_eq fun r hr houter => ?_
  have hmem : r.name ∈ Reference.outerNames (n.references "" []) :=
    List.mem_map.mpr ⟨r, List.mem_filter.mpr ⟨hr, houter⟩, rfl⟩
  rw [outerNames_placed s [] n hp] at hmem
  cases s with
  | true => exact hv rfl hmem
  | false => cases hmem

theorem declare_known {x : String} (hx : x ∈ σ.names) : σ.declare x = σ :=
  if_pos (List.contains_iff_mem.mpr hx)

theorem copy_absent (σ : Scope) : copy σ .absent = .absent := by
  unfold copy
  rw [rename]
  rfl

/-! ## §3. Derivations. -/

/-- A job gave the image of what it walks, and left the scope alone. -/
def Job.Imaged (σ σ' : Scope) (vs : List Node) (code : List Instr) : Job → Prop
  | .expr n => σ' = σ ∧ vs = [copy σ n] ∧ code = []
  | .effect n => σ' = σ ∧ vs = [copy σ n] ∧ code = [.stat (copy σ n)]
  | .test n => σ' = σ ∧ vs = [copy σ n] ∧ code = testImage σ n
  | .step n => σ' = σ ∧ vs = [copy σ n] ∧ code = stepImage σ n
  | .stmt n | .region n => σ' = σ ∧ code = image σ n
  | .stmts ns => σ' = σ ∧ code = imageAll σ ns
  | .bindings ds => σ' = σ ∧ code = ds.map (bindingImage σ)
  | .operands _ => True

theorem Emits.expr_imaged (env : Surface) (h : Emits env (.expr n) σ vs split code σ')
    (hc : n.analysedCalls = []) (hk : (Job.expr n).Known σ) :
    (Job.expr n).Imaged σ σ' vs code := by
  have hone : ∃ v, vs = [v] := by
    cases h with
    | leads hl => cases hl
    | _ => exact ⟨_, rfl⟩
  obtain ⟨v, rfl⟩ := hone
  obtain ⟨-, hcode, hv, hσ⟩ := h.copied_of_calls hc
  exact ⟨hσ.trans (copyScope_known hk nofun), by rw [hv], hcode⟩

/-- A walk of a source without calls, in a scope that knows its names, gives the image of it. -/
theorem Emits.imaged (h : Emits env job σ vs split code σ') (hc : job.calls = [])
    (hk : job.Known σ) : job.Imaged σ σ' vs code := by
  induction h with
  | reference x => exact Emits.expr_imaged env (.reference x) hc hk
  | literal hf => exact Emits.expr_imaged env (.literal hf) hc hk
  | copied hf => exact Emits.expr_imaged env (.copied hf) hc hk
  | kept hf ops => exact Emits.expr_imaged env (.kept hf ops) hc hk
  | captured hf ops => exact Emits.expr_imaged env (.captured hf ops) hc hk
  | assigned ht ops => exact Emits.expr_imaged env (.assigned ht ops) hc hk
  | called ops => exact Emits.expr_imaged env (.called ops) hc hk
  | operandsNil | operandsCons => trivial
  | effect value ih =>
    obtain ⟨rfl, hv, rfl⟩ := ih hc hk
    cases hv
    obtain ⟨rfl, -⟩ := value.unsplit hc
    exact ⟨rfl, rfl, rfl⟩
  | test value ih =>
    obtain ⟨rfl, hv, rfl⟩ := ih hc hk
    cases hv
    refine ⟨rfl, rfl, ?_⟩
    unfold testImage
    rw [value.expr_present]
    rfl
  | leads hl done ih =>
    have hjob := ih (hl.calls ▸ hc) (hk.leads hl)
    cases hl with
    | expression hn =>
      obtain ⟨rfl, -, rfl⟩ := hjob
      exact ⟨rfl, (image_of_isExpression hn).symm⟩
    | stat e =>
      obtain ⟨rfl, -, rfl⟩ := hjob
      exact ⟨rfl, by rw [image]⟩
    | var ds | block ns | splice ns =>
      obtain ⟨rfl, rfl⟩ := hjob
      exact ⟨rfl, by rw [image]⟩
    | region => exact hjob
    | step n =>
      have hn : n.isAbsent = false := by
        cases done with
        | effect value => exact value.expr_present
        | leads hl => cases hl
        | void hv => cases hv
      obtain ⟨rfl, hv, rfl⟩ := hjob
      refine ⟨rfl, hv, ?_⟩
      unfold stepImage
      rw [hn]
      rfl
  | void hv =>
    cases hv with
    | region => exact ⟨rfl, by rw [image]⟩
    | test | step => exact ⟨rfl, by rw [copy_absent], rfl⟩
  | @branch σ σ₁ σ₂ σ₃ c v yes no ys ns cs ysp nsp code yl nl cond yesDone noDone ih ih₁ ih₂ =>
    have hparts : (Node.ifElse c yes no).analysedCalls = [c, yes, no].flatMap analysedCalls :=
      analysedCalls_children rfl rfl rfl
    have hcalls := hparts.symm.trans hc
    simp only [List.flatMap_cons, List.flatMap_nil, List.append_nil,
      List.append_eq_nil_iff] at hcalls
    obtain ⟨hcc, hcy, hcn⟩ := hcalls
    obtain ⟨hp, hv⟩ := hk
    rw [placed, Bool.and_eq_true, Bool.and_eq_true] at hp
    rw [vars, List.append_subset] at hv
    obtain ⟨rfl, hvs, rfl⟩ := ih hcc hp.1.1
    cases hvs
    obtain ⟨rfl, rfl⟩ := ih₁ hcy ⟨hp.1.2, hv.1⟩
    obtain ⟨rfl, rfl⟩ := ih₂ hcn ⟨hp.2, hv.2⟩
    -- no part was split, so the shape is empty and no temp stands for a side
    obtain ⟨rfl, -⟩ := cond.unsplit hcc
    obtain ⟨rfl, -⟩ := yesDone.unsplit hcy
    obtain ⟨rfl, -⟩ := noDone.unsplit hcn
    exact ⟨rfl, by rw [image]; rfl⟩
  | @loop σ σ₁ σ₂ σ₃ σ₄ init cond step body c e is bs isp csp ssp bsp il tl sl bl initDone testDone
      stepDone bodyDone ih ih₁ ih₂ ih₃ =>
    have hparts : (Node.forLoop init cond step body).analysedCalls =
        [init, cond, step, body].flatMap analysedCalls := analysedCalls_children rfl rfl rfl
    have hcalls := hparts.symm.trans hc
    simp only [List.flatMap_cons, List.flatMap_nil, List.append_nil,
      List.append_eq_nil_iff] at hcalls
    obtain ⟨hci, hcc, hcs, hcb⟩ := hcalls
    obtain ⟨hp, hv⟩ := hk
    rw [placed, Bool.and_eq_true, Bool.and_eq_true, Bool.and_eq_true] at hp
    rw [vars, List.append_subset] at hv
    obtain ⟨rfl, rfl⟩ := ih hci ⟨hp.1.1.1, hv.1⟩
    obtain ⟨rfl, hvs, rfl⟩ := ih₁ hcc hp.1.1.2
    cases hvs
    obtain ⟨rfl, hvs, rfl⟩ := ih₂ hcs hp.1.2
    cases hvs
    obtain ⟨rfl, rfl⟩ := ih₃ hcb ⟨hp.2, hv.2⟩
    obtain ⟨rfl, -⟩ := testDone.unsplit hcc
    obtain ⟨rfl, -⟩ := stepDone.unsplit hcs
    exact ⟨rfl, by rw [image]; rfl⟩
  | @declaration σ σ' name params ns vs split list body ih =>
    obtain ⟨hp, hv⟩ := hk
    rw [placed] at hp
    rw [vars] at hv
    obtain ⟨rfl, rfl⟩ := ih ((analysedCalls_children (n := .defun name params ns) rfl rfl
      rfl).symm.trans hc) ⟨hp, hv⟩
    exact ⟨rfl, by rw [image]⟩
  | passed hp => exact ⟨copyScope_known hk.1 fun _ => hk.2, (image_of_isPassed hp).symm⟩
  | stmtsNil => exact ⟨rfl, by rw [imageAll]⟩
  | @stmtsCons σ σ₁ σ₂ n ns vs vs' split split' code code' head tail ih ih' =>
    rw [Job.calls, List.flatMap_cons, List.append_eq_nil_iff] at hc
    obtain ⟨hp, hv⟩ := hk
    rw [placedAll, Bool.and_eq_true] at hp
    rw [varsAll, List.append_subset] at hv
    obtain ⟨rfl, rfl⟩ := ih hc.1 ⟨hp.1, hv.1⟩
    obtain ⟨rfl, rfl⟩ := ih' hc.2 ⟨hp.2, hv.2⟩
    exact ⟨rfl, by rw [imageAll]⟩
  | bindingsNil => exact ⟨rfl, rfl⟩
  | @bare σ σ' x ds vs split code rest ih =>
    rw [Job.calls, List.map_cons, List.flatMap_cons, List.append_eq_nil_iff] at hc
    obtain ⟨hp, hv⟩ := hk
    rw [placedFields, Bool.and_eq_true] at hp
    rw [List.map_cons, List.cons_subset] at hv
    -- the name is known already, so the scope stays as it is
    rw [declare_known hv.1] at ih
    obtain ⟨rfl, rfl⟩ := ih hc.2 ⟨hp.2, hv.2⟩
    exact ⟨rfl, rfl⟩
  | @bound σ σ₁ σ₂ x init v ds vs split split' code code' value rest ih ih' =>
    rw [Job.calls, List.map_cons, List.flatMap_cons, List.append_eq_nil_iff] at hc
    obtain ⟨hp, hv⟩ := hk
    rw [placedFields, Bool.and_eq_true] at hp
    rw [List.map_cons, List.cons_subset] at hv
    rw [declare_known hv.1] at ih
    obtain ⟨rfl, hvs, rfl⟩ := ih hc.1 hp.1
    cases hvs
    obtain ⟨rfl, rfl⟩ := ih' hc.2 ⟨hp.2, hv.2⟩
    obtain ⟨rfl, -⟩ := value.unsplit hc.1
    refine ⟨rfl, ?_⟩
    rw [List.map_cons, bindingImage, value.expr_present]
    rfl

end

end Walk

/-! ## §4. Whole units. -/

/-- A unit without calls, whose `var` statements stand in statement positions, becomes its image:
    nothing is captured, nothing suspends and no part of a branch is split.  Wherever the walk meets
    an expression without calls it gives the copy of it. -/
theorem transform_passes_through (naming : Naming) (isAsync : String → Bool) (body : List Node)
    (t : Transformed) (h : (transform naming isAsync (.toplevel body)).1 = .ok t)
    (hcalls : (Node.toplevel body).analysedCalls = [])
    (hplaced : Node.placedAll true body = true) :
    t.program = Walk.imageAll (naming.scope body) body ∧
      t.stats.temps = 0 ∧ t.stats.calls = 0 ∧ t.stats.asyncCalls = 0 ∧
      (∀ i ∈ Instr.walkAll t.program, i.async = false ∧ i.bits = 0) ∧
      ∀ (env : Surface) (e v : Node) (split : Bool) (s s' : State), e.analysedCalls = [] →
        Walk.expr env e s = (.ok (v, split), s') → v = Walk.copy s.scope e ∧ split = false := by
  obtain ⟨body', σ, heq, hd⟩ := transform_emits h
  cases heq
  obtain ⟨vs, split, he⟩ := hd.emits
  -- the walk starts with all names declared that a `var` of the unit binds
  have hc : (Walk.Job.stmts body).calls = [] :=
    (Walk.analysedCalls_children (n := .toplevel body) rfl rfl rfl).symm.trans hcalls
  have hvars : Node.varsAll body ⊆ (naming.scope body).names := fun x hx =>
    Scope.mem_declareAll.mpr (.inr hx)
  obtain ⟨rfl, hprogram⟩ := he.imaged hc ⟨hplaced, hvars⟩
  have hwhole : Instr.Every Instr.Whole t.program := by
    rw [hprogram]
    exact Walk.whole_imageAll body
  have hnone : Instr.callCount t.program = 0 := by
    have hlist := (he.unsplit hc).2
    unfold Instr.callCount
    rw [List.countP_eq_length_filter]
    exact List.length_eq_zero_iff.mpr hlist
  refine ⟨hprogram, ?_, ?_, ?_, hwhole, ?_⟩
  · rw [hd.stats]
    exact (naming.declares_scope body).sameTemps
  · rw [hd.stats]
    exact hnone
  · rw [hd.stats]
    refine Nat.le_zero.mp (hnone ▸ List.countP_mono_left fun i _ hi => ?_)
    exact (Bool.and_eq_true_iff.mp hi).1
  · intro env e v split s s' hcalls hexpr
    obtain ⟨hv, hs, -⟩ := Walk.expr_eq_copy hexpr hcalls
    exact ⟨hv, hs⟩

/-- Bindings with and without a value, a branch, a loop, a declaration and a statement with a call
    that is not looked into: `var x = 1, y; if (x) y = x + 1; else ;
    for (var i = 0; i < x; i++) { a[i] = y; } function g() { return f(x); }`. -/
theorem transform_passes_through_of_loop :
    let body : List Node := [.var [("x", .num "1"), ("y", .absent)],
      .ifElse (.name "x") (.stat (.assign "" (.name "y") (.binary "+" (.name "x") (.num "1"))))
        .absent,
      .forLoop (.var [("i", .num "0")]) (.binary "<" (.name "i") (.name "x"))
        (.unary .after "++" (.name "i"))
        (.block [.stat (.assign "" (.sub (.name "a") (.name "i")) (.name "y"))]),
      .defun "g" [] [.ret (.call (.name "f") [.name "x"])]]
    ∃ t, (transform {} (fun _ => false) (.toplevel body)).1 = .ok t ∧
      (Node.toplevel body).analysedCalls = [] ∧ Node.placedAll true body = true ∧
      t.program = Walk.imageAll (Naming.scope {} body) body ∧
      t.stats.temps = 0 ∧ t.stats.calls = 0 ∧ t.stats.asyncCalls = 0 ∧
      (∀ i ∈ Instr.walkAll t.program, i.async = false ∧ i.bits = 0) ∧
      ∀ (env : Surface) (e v : Node) (split : Bool) (s s' : State), e.analysedCalls = [] →
        Walk.expr env e s = (.ok (v, split), s') → v = Walk.copy s.scope e ∧ split = false := by
  intro body
  obtain ⟨t, ht⟩ : ∃ t, (transform {} (fun _ => false) (.toplevel body)).1 = .ok t :=
    exists_of_isOk (by decide +kernel)
  have hcalls : (Node.toplevel body).analysedCalls = [] := by
    simp (disch := decide) [body, Node.analysedCalls_of_isWhole, Node.analysedCalls_eq,
      Node.children, Node.present, Node.isAbsent, Walk.isCall]
  have hplaced : Node.placedAll true body = true := by decide
  exact ⟨t, ht, hcalls, hplaced,
    transform_passes_through {} (fun _ => false) body t ht hcalls hplaced⟩

end Resumable.Program
