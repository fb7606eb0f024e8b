/-
  Resumable.Proofs.Walk.Calls — every call of the source is there once, in order.

  `analysedCalls` lists the calls of a tree in post-order over `children`: callee, arguments, the
  call.  It does not look into what a walk copies as a whole.  The calls that a walk over a program
  meets are these, one for one (`CallMatches`).

  The invariant of a derivation speaks of its job: `Job.calls` are the calls of what is walked, and
  the calls of the code correspond to them.  Operands, parts of loops and bindings are put together
  in the order of `children`, so each rule of a derivation appends two such correspondences.

  Main statement: `transform_calls_match`.
-/
import Mathlib.Data.List.Forall2
import Resumable.Proofs.Tree.Traversal
import Resumable.Proofs.Walk.Growth

namespace Resumable

namespace Node

/-! ## §1. The calls of a tree. -/

/-- Whether a construct is taken as a whole: what is inside it is not analysed. -/
def isWhole : Node → Bool
  | conditional _ _ _ | seq _ | function _ _ _ => true
  | label _ _ | whileLoop _ _ | doLoop _ _ | tryCatch _ _ _ | throw _ | switch _ _ | forIn _ _ _
  | withObject _ _ | ret _ | const _ => true
  | _ => false

/-- The calls of a tree that are analysed, in post-order. -/
def analysedCalls (n : Node) : List Node :=
  if n.isWhole then []
  else
    n.children.attach.flatMap (fun c => analysedCalls c.1) ++
      if Program.Walk.isCall n then [n] else []
termination_by n
decreasing_by exact sizeOf_lt_of_mem_children c.2

theorem analysedCalls_of_isWhole {n : Node} (h : n.isWhole = true) : n.analysedCalls = [] := by
  rw [analysedCalls, if_pos h]

theorem analysedCalls_eq {n : Node} (h : n.isWhole = false) :
    n.analysedCalls =
      n.children.flatMap analysedCalls ++ if Program.Walk.isCall n then [n] else [] := by
  rw [analysedCalls, h, if_neg Bool.false_ne_true]
  congr 1
  rw [List.flatMap_subtype (g := analysedCalls) (fun _ _ => rfl), List.unattach_attach]

theorem analysedCalls_absent : absent.analysedCalls = [] := by
  rw [analysedCalls_eq rfl]
  rfl

/-- An empty position has no calls. -/
theorem flatMap_present (ns : List Node) :
    (present ns).flatMap analysedCalls = ns.flatMap analysedCalls :=
  flatMap_present_of _ analysedCalls_absent ns

end Node

namespace Program

namespace Instr

/-- The calls that a walk over a list meets. -/
def calls (list : List Instr) : List Instr := (walkAll list).filter (fun i => i.command == "call")

theorem calls_append (xs ys : List Instr) : calls (xs ++ ys) = calls xs ++ calls ys := by
  unfold calls
  rw [walkAll_append, List.filter_append]

/-- An instruction that is no call has the calls it holds. -/
theorem calls_single {i : Instr} (hi : i.command ≠ "call") : calls [i] = calls i.inner := by
  unfold calls
  rw [walkAll_cons, List.filter_cons_of_neg (by simpa using hi)]
  simp [walkAll]

end Instr

namespace Walk

open Node (analysedCalls analysedCalls_eq analysedCalls_absent analysedCalls_of_isWhole
  flatMap_present)

/-! ## §2. The calls of operands. -/

theorem analysedCalls_place {t : Node} (ht : isTarget t = true) :
    t.analysedCalls = (placeParts t).flatMap analysedCalls := by
  cases t with
  | name x | dot b f | sub b i =>
    rw [analysedCalls_eq rfl, Node.children]
    simp [placeParts, isCall, flatMap_present]
  | _ => cases ht

theorem analysedCalls_callee (c : Node) :
    c.analysedCalls = (calleeParts c).flatMap analysedCalls := by
  unfold calleeParts
  split
  · next hc =>
    refine analysedCalls_place ?_
    cases c <;> cases hc <;> rfl
  · simp

theorem analysedCalls_operand (op : String) (e : Node) :
    e.analysedCalls = (operandParts op e).flatMap analysedCalls := by
  unfold operandParts
  split
  · next he => exact analysedCalls_place (Bool.and_eq_true_iff.mp he).2
  · simp

/-- The calls of a call: those of its operands, then the call itself. -/
theorem analysedCalls_call (c : Node) (args : List Node) :
    (Node.call c args).analysedCalls =
      (parts (.call c args)).flatMap analysedCalls ++ [.call c args] := by
  rw [analysedCalls_eq rfl, Node.children, flatMap_present, List.flatMap_cons,
    analysedCalls_callee, parts, List.flatMap_append]
  rfl

/-- The calls of an expression that is no call are those of its operands. -/
theorem analysedCalls_parts {n : Node} (h : form n = .combined ∨ form n = .assigned) :
    n.analysedCalls = (parts n).flatMap analysedCalls := by
  cases n with
  | new c args | binary op l r | dot b f | sub b i | array es | object ps =>
    rw [analysedCalls_eq rfl, Node.children, flatMap_present, parts]
    simp [isCall]
  | unary side op e =>
    rw [analysedCalls_eq rfl, Node.children, flatMap_present, parts, ← analysedCalls_operand]
    simp [isCall]
  | assign op t v =>
    have ht : isTarget t = true := by
      by_contra hn
      rcases h with h | h <;> simp [form, hn] at h
    rw [analysedCalls_eq rfl, Node.children, flatMap_present, parts, List.flatMap_append,
      ← analysedCalls_place ht]
    simp [isCall]
  | _ => rcases h with h | h <;> cases h

/-! ## §3. The calls of a derivation. -/

/-- The calls of what is walked. -/
def Job.calls : Job → List Node
  | .expr n | .effect n | .stmt n | .region n | .test n | .step n => n.analysedCalls
  | .operands ns | .stmts ns => ns.flatMap analysedCalls
  | .bindings ds => (ds.map (·.2)).flatMap analysedCalls

theorem Job.Leads.calls {job job' : Job} (h : job.Leads job') : job.calls = job'.calls := by
  cases h with
  | expression | region | step => rfl
  | stat e | var ds | block ns | splice ns =>
    refine (analysedCalls_eq rfl).trans ?_
    rw [Node.children, flatMap_present]
    simp [Job.calls, isCall]

theorem Job.Void.calls {job : Job} (h : job.Void) : job.calls = [] := by
  cases h <;> exact analysedCalls_absent

/-- A callee keeps its form.  A name is read from the container if it is among the names known
    when the call is walked: those in `hoisted` are known from the beginning, those in `locals` in
    the end. -/
inductive CalleeMatches (container : String) (hoisted locals : List String) : Node → Node → Prop
  | name (x : String) {known : List String} (first : hoisted ⊆ known) (last : known ⊆ locals) :
      CalleeMatches container hoisted locals (.name x)
        (if x ∈ known then .dot (.name container) x else .name x)
  | dot (b b' : Node) (f : String) : CalleeMatches container hoisted locals (.dot b f) (.dot b' f)
  | sub (b b' i i' : Node) : CalleeMatches container hoisted locals (.sub b i) (.sub b' i')
  | other {c : Node} (c' : Node) (h : isTarget c = false) :
      CalleeMatches container hoisted locals c c'

/-- An instruction is a call of the source. -/
inductive CallMatches (container : String) (hoisted locals : List String) : Node → Instr → Prop
  | call {c c' : Node} {args args' : List Node} (async : Bool)
      (callee : CalleeMatches container hoisted locals c c') (count : args'.length = args.length) :
      CallMatches container hoisted locals (.call c args)
        (.leaf "call" (.stat (.call c' args')) async)

section

variable {env : Surface} {container : String} {hoisted hoisted' locals locals' : List String}
  {σ σ₁ σ₂ : Scope} {c c' : Node} {args vs : List Node} {split : Bool} {code xs ys : List Instr}

theorem CalleeMatches.widen (h : CalleeMatches container hoisted locals c c')
    (hh : hoisted' ⊆ hoisted) (hl : locals ⊆ locals') :
    CalleeMatches container hoisted' locals' c c' := by
  cases h with
  | name x first last => exact .name x (List.Subset.trans hh first) (List.Subset.trans last hl)
  | dot b b' f => exact .dot b b' f
  | sub b b' i i' => exact .sub b b' i i'
  | other _ hc => exact .other _ hc

/-- A called name is looked up in the scope in which the call begins. -/
theorem name_emits {x : String} {v : Node} (h : Emits env (.expr (.name x)) σ [v] split code σ₁) :
    v = σ.resolve x ∧ σ₁ = σ := by
  cases h with
  | reference => exact ⟨rfl, rfl⟩
  | literal hf | copied hf => cases hf
  | kept hf => rcases hf with hf | hf <;> cases hf
  | captured hf => cases hf
  | leads hl => cases hl
  | void hv => cases hv

theorem resolve_eq (σ : Scope) (x : String) :
    σ.resolve x = if x ∈ σ.names then .dot (.name σ.container) x else .name x := by
  unfold Scope.resolve Scope.declared Scope.field
  simp only [List.contains_iff_mem]

/-- Something that is assigned to or called keeps its form. -/
theorem place_matches {t : Node} (ht : isTarget t = true)
    (hlen : (placeParts t).length ≤ vs.length) (hσ : σ.Grows σ₁) :
    CalleeMatches σ.container σ.names σ₁.names t (placeFrom σ t vs) := by
  cases t with
  | name x =>
    show CalleeMatches _ _ _ _ (σ.resolve x)
    rw [resolve_eq]
    exact .name x (List.Subset.refl _) hσ.names.subset
  | dot b f =>
    match vs with
    | [] => simp [placeParts] at hlen
    | b' :: _ => exact .dot b b' f
  | sub b i =>
    match vs with
    | [] | [_] => simp [placeParts] at hlen
    | b' :: i' :: _ => exact .sub b b' i i'
  | _ => cases ht

theorem callee_matches (ops : Emits env (.operands (parts (.call c args))) σ vs split code σ₁) :
    CalleeMatches σ.container σ.names σ₁.names c (calleeFrom σ c vs) := by
  have hgrows := ops.grows
  have hlen := ops.operands_length
  rw [parts, List.length_append] at hlen
  cases c with
  | name x =>
    cases ops with
    | operandsCons head tail =>
      -- a name is resolved before the arguments are walked, so in the scope of the start
      obtain ⟨rfl, -⟩ := name_emits head
      show CalleeMatches _ _ _ _ (σ.resolve x)
      rw [resolve_eq]
      exact .name x (List.Subset.refl _) hgrows.names.subset
    | leads hl => cases hl
    | void hv => cases hv
  | dot b f | sub b i =>
    have hparts : ∀ t, isMember t = true → calleeParts t = placeParts t := fun t ht => if_pos ht
    rw [hparts _ rfl] at hlen
    exact place_matches rfl (by omega) hgrows
  | _ => exact .other _ rfl

theorem CallMatches.widen {n : Node} {i : Instr} (h : CallMatches container hoisted locals n i)
    (hh : hoisted' ⊆ hoisted) (hl : locals ⊆ locals') :
    CallMatches container hoisted' locals' n i := by
  cases h with
  | call async callee count => exact .call async (callee.widen hh hl) count

/-- The calls of some code correspond to calls of the source; the names known grow from those of
    one scope to those of another. -/
def CallsMatch (σ σ' : Scope) (ns : List Node) (code : List Instr) : Prop :=
  List.Forall₂ (CallMatches σ.container σ.names σ'.names) ns (Instr.calls code)

theorem CallsMatch.append {ns ms : List Node} (h : CallsMatch σ σ₁ ns xs)
    (h' : CallsMatch σ₁ σ₂ ms ys) (hσ : σ.Grows σ₁) (hσ' : σ₁.Grows σ₂) :
    CallsMatch σ σ₂ (ns ++ ms) (xs ++ ys) := by
  unfold CallsMatch at *
  rw [Instr.calls_append]
  rw [hσ.container] at h'
  -- each part is stated between its own scopes, which lie between those of the whole
  refine List.rel_append ?_ ?_
  · exact h.imp fun n i hi => hi.widen (List.Subset.refl _) hσ'.names.subset
  · exact h'.imp fun n i hi => hi.widen hσ.names.subset (List.Subset.refl _)

/-- Code without calls, for a source without calls. -/
theorem CallsMatch.nil (h : Instr.calls xs = []) : CallsMatch σ σ₁ [] xs := by
  unfold CallsMatch
  rw [h]
  exact .nil

theorem CallsMatch.leaf {command : String} (h : command ≠ "call") (c : Node) (a : Bool) :
    CallsMatch σ σ₁ [] [.leaf command c a] :=
  .nil (Instr.calls_single h)

/-- The same calls, listed for another source. -/
theorem CallsMatch.of_eq {ns ms : List Node} (hn : ms = ns) (h : CallsMatch σ σ₁ ns xs) :
    CallsMatch σ σ₁ ms xs := by
  rw [hn]
  exact h

/-- An instruction that holds code and is no call itself. -/
theorem CallsMatch.hold {ns : List Node} {i : Instr} (hi : i.command ≠ "call")
    (h : CallsMatch σ σ₁ ns i.inner) : CallsMatch σ σ₁ ns [i] := by
  unfold CallsMatch
  rw [Instr.calls_single hi]
  exact h

/-- A leaf that is no call, behind code whose calls correspond. -/
theorem CallsMatch.leaf_behind {ns : List Node} {command : String} {c : Node} {a : Bool}
    (hc : command ≠ "call") (h : CallsMatch σ σ₁ ns xs) (hσ : σ.Grows σ₁) (hσ' : σ₁.Grows σ₂) :
    CallsMatch σ σ₂ ns (xs ++ [.leaf command c a]) := by
  have happend := h.append (.leaf hc c a) hσ hσ'
  rw [List.append_nil] at happend
  exact happend

theorem analysedCalls_of_literal {n : Node} (h : form n = .literal) : n.analysedCalls = [] := by
  cases n with
  | num _ | string _ | atom _ | regexp _ _ => exact analysedCalls_eq rfl
  | assign op t v =>
    simp only [form] at h
    split at h <;> cases h
  | _ => cases h

theorem analysedCalls_of_copied {n : Node} (h : form n = .copied) : n.analysedCalls = [] := by
  cases n with
  | conditional _ _ _ | seq _ | function _ _ _ => exact analysedCalls_of_isWhole rfl
  | assign op t v =>
    simp only [form] at h
    split at h <;> cases h
  | _ => cases h

theorem analysedCalls_of_passed {n : Node} (h : isPassed n = true) : n.analysedCalls = [] := by
  cases n with
  | breakTo _ | continueTo _ | debugger => exact analysedCalls_eq rfl
  | label _ _ | whileLoop _ _ | doLoop _ _ | tryCatch _ _ _ | throw _ | switch _ _ | forIn _ _ _
  | withObject _ _ | ret _ | const _ => exact analysedCalls_of_isWhole rfl
  | _ => cases h

/-- The calls of a statement that is no call are those of the nodes in it. -/
theorem analysedCalls_children {n : Node} {ns : List Node} (hw : n.isWhole = false)
    (hc : isCall n = false) (h : n.children = Node.present ns) :
    n.analysedCalls = ns.flatMap analysedCalls := by
  rw [analysedCalls_eq hw, h, flatMap_present, hc, if_neg Bool.false_ne_true, List.append_nil]

/-- A call is the last of its calls. -/
theorem call_match (ops : Emits env (.operands (parts (.call c args))) σ vs split code σ₁)
    (h : CallsMatch σ σ₁ (Job.operands (parts (.call c args))).calls code) :
    CallsMatch σ σ₁.nextTemp.2 (Job.expr (.call c args)).calls
      (code ++ [callInstr env σ c args vs, captureInstr env σ₁.nextTemp.1]) := by
  have hcount : (vs.drop (calleeParts c).length).length = args.length := by
    have hlen := ops.operands_length
    rw [parts, List.length_append] at hlen
    rw [List.length_drop]
    omega
  -- the calls of the callee and of the arguments are all in `code`
  have hthis : CallMatches σ.container σ.names σ₁.names (.call c args)
      (callInstr env σ c args vs) := .call _ (callee_matches ops) hcount
  unfold CallsMatch at *
  rw [Instr.calls_append, Job.calls, analysedCalls_call]
  exact List.rel_append h (.cons hthis .nil)

/-- The calls of a derivation are those of its job. -/
theorem Emits.calls_match {job : Job} {σ' : Scope} (h : Emits env job σ vs split code σ') :
    CallsMatch σ σ' job.calls code := by
  induction h with
  | reference => exact .of_eq (analysedCalls_eq rfl) (.nil rfl)
  | literal hf => exact .of_eq (analysedCalls_of_literal hf) (.nil rfl)
  | copied hf => exact .of_eq (analysedCalls_of_copied hf) (.nil rfl)
  | void hv => exact .of_eq hv.calls (.nil rfl)
  | operandsNil | stmtsNil | bindingsNil => exact .nil rfl
  | kept hf _ ih => exact .of_eq (analysedCalls_parts hf) ih
  | captured hf ops ih =>
    exact .of_eq (analysedCalls_parts (.inl hf))
      (.leaf_behind (by decide) ih ops.grows (Scope.grows_nextTemp _))
  | assigned ht ops ih =>
    exact .of_eq (analysedCalls_parts (.inr (if_pos ht)))
      (.leaf_behind (by decide) ih ops.grows (.refl _))
  | called ops ih => exact call_match ops ih
  | operandsCons head tail ih ih' | stmtsCons head tail ih ih' =>
    exact .of_eq List.flatMap_cons (ih.append ih' head.grows tail.grows)
  | @effect σ σ' n v split code value ih =>
    cases split with
    | false => exact .leaf_behind (by decide) ih value.grows (.refl _)
    | true =>
      rw [unsplitStat, if_pos rfl, List.append_nil]
      exact ih
  | leads hl _ ih => exact .of_eq hl.calls ih
  | test value ih => exact .leaf_behind (by decide) ih value.grows (.refl _)
  | branch cond yesDone noDone ih ih₁ ih₂ =>
    have hregions := ih₁.append ih₂ yesDone.grows noDone.grows
    refine .of_eq ((analysedCalls_children rfl rfl rfl).trans ?_)
      (ih.append (.hold (by simp [Instr.command]) hregions) cond.grows
        (yesDone.grows.trans noDone.grows))
    simp [Job.calls]
  | loop initDone testDone stepDone bodyDone ih ih₁ ih₂ ih₃ =>
    -- a walk meets test, step and body in this order, which is that of the children of a loop
    have hahead := testDone.grows.trans stepDone.grows
    have hparts := (ih₁.append ih₂ testDone.grows stepDone.grows).append ih₃ hahead bodyDone.grows
    refine .of_eq ((analysedCalls_children rfl rfl rfl).trans ?_)
      (ih.append (.hold (by simp [Instr.command]) hparts) initDone.grows
        (hahead.trans bodyDone.grows))
    simp [Job.calls]
  | declaration body ih =>
    exact .of_eq (analysedCalls_children rfl rfl rfl) (.hold (by simp [Instr.command]) ih)
  | passed hp => exact .of_eq (analysedCalls_of_passed hp) (.leaf (isPassed_tag hp) _ _)
  | @bare σ σ' x ds vs split code rest ih =>
    have hx := (Scope.declares_declare σ x).toGrows
    have hset : CallsMatch σ (σ.declare x) [] [.set (σ.field x) .null] := .leaf (by decide) _ _
    refine .of_eq ?_ (hset.append ih hx rest.grows)
    simp [Job.calls, analysedCalls_absent]
  | @bound σ σ₁ σ₂ x init v ds vs split split' code code' value rest ih ih' =>
    have hx := (Scope.declares_declare σ x).toGrows
    have hfront : CallsMatch σ (σ.declare x) [] (placeholder split (σ.field x)) := by
      cases split with
      | false => exact .nil rfl
      | true => exact .leaf (by decide) _ _
    have hset : CallsMatch σ₁ σ₁ [] [.set (σ.field x) v] := .leaf (by decide) _ _
    have hvalue := hfront.append ih hx value.grows
    have hrest := hset.append ih' (.refl _) rest.grows
    refine .of_eq ?_ (hvalue.append hrest (hx.trans value.grows) rest.grows)
    simp [Job.calls]

end

end Walk

/-! ## §4. Whole programs. -/

/-- The calls that a walk over a program meets are the analysed calls of its unit, in post-order. -/
theorem transform_calls_match (naming : Naming) (isAsync : String → Bool) (unit : Node)
    (t : Transformed) (h : (transform naming isAsync unit).1 = .ok t) :
    ∃ body, unit = .toplevel body ∧
      List.Forall₂ (Walk.CallMatches naming.container (Node.varsAll body) t.locals)
        unit.analysedCalls
        ((Instr.walkAll t.program).filter (fun i => i.command == "call")) := by
  obtain ⟨body, σ, rfl, hd⟩ := transform_emits h
  obtain ⟨vs, split, he⟩ := hd.emits
  have hmatch := he.calls_match
  unfold Walk.CallsMatch at hmatch
  rw [(naming.declares_scope body).container, ← hd.locals] at hmatch
  refine ⟨body, rfl, ?_⟩
  rw [Walk.analysedCalls_children rfl rfl rfl]
  exact hmatch.imp fun n i hi =>
    hi.widen (fun x hx => Scope.mem_declareAll.mpr (.inr hx)) (List.Subset.refl _)

/-- Calls in a callee, in arguments, in a branch and inside a conditional:
    `var x = f(g(), o.m(x)); if (x()) (a ? b() : c)[d()]()`. -/
theorem transform_calls_match_of_branch :
    let body : List Node :=
      [.var [("x", .call (.name "f") [.call (.name "g") [],
        .call (.dot (.name "o") "m") [.name "x"]])],
       .ifElse (.call (.name "x") [])
        (.stat (.call (.sub (.conditional (.name "a") (.call (.name "b") []) (.name "c"))
          (.call (.name "d") [])) [])) .absent]
    ∃ t, (transform {} (fun _ => false) (.toplevel body)).1 = .ok t ∧
      ∃ body', Node.toplevel body = .toplevel body' ∧
        List.Forall₂ (Walk.CallMatches "$$locals" (Node.varsAll body') t.locals)
          (Node.toplevel body).analysedCalls
          ((Instr.walkAll t.program).filter (fun i => i.command == "call")) := by
  intro body
  obtain ⟨t, ht⟩ : ∃ t, (transform {} (fun _ => false) (.toplevel body)).1 = .ok t :=
    exists_of_isOk (by decide +kernel)
  exact ⟨t, ht, transform_calls_match {} (fun _ => false) (.toplevel body) t ht⟩

end Program

end Resumable
