/-
  Resumable.Proofs.Scope.Placement — no declared name escapes the container.

  The names of a unit are collected before the walk from statement positions.  If every `var`
  stands in one (`placed`), these are all the names that `var` statements outside function literals
  bind, in their order (`outerNames_placed`).  Then nothing is left to declare on the way, so a name
  is known from the beginning or never, wherever it is used.

  Main statement: `transform_closes_names`.
-/
import Mathlib.Data.List.Induction
import Resumable.Proofs.Meaning.Preservation
import Resumable.Proofs.Scope.Redirection

namespace Resumable

namespace Node

open Reference (outerNames outerNames_append)

/-! ## §1. Statement positions. -/

mutual

/-- Whether every `var` in a node stands in a statement position: in a list of statements, a branch,
    a body, or as the initializer of a loop, of a statement that stands in such a position itself.
    `s` says whether the node does; operands do not, nor do the statements of a unit inside another
    one, since a unit is no statement. -/
def placed (s : Bool) : Node → Bool
  | var ds => s && placedFields ds
  | block b => placedAll s b
  | splice ns => placedAll s ns
  | defun _ _ b => placedAll s b
  | ifElse t y n => placed false t && placed s y && placed s n
  | forLoop i t st b => placed s i && placed false t && placed false st && placed s b
  | forIn i o b => placed s i && placed false o && placed s b
  | whileLoop t b => placed false t && placed s b
  | doLoop t b => placed false t && placed s b
  | withObject o b => placed false o && placed s b
  | label _ b => placed s b
  | tryCatch b h f => placedAll s b && placedHandler s h && placedFinalizer s f
  | switch d cs => placed false d && placedCases s cs
  | function _ _ b => placedAll true b
  | toplevel b => placedAll false b
  | stat e => placed false e
  | ret v => placed false v
  | throw v => placed false v
  | const ds => placedFields ds
  | array es => placedAll false es
  | seq es => placedAll false es
  | object ps => placedFields ps
  | call f as => placed false f && placedAll false as
  | new f as => placed false f && placedAll false as
  | unary _ _ e => placed false e
  | binary _ l r => placed false l && placed false r
  | assign _ t v => placed false t && placed false v
  | dot b _ => placed false b
  | sub b i => placed false b && placed false i
  | conditional t y n => placed false t && placed false y && placed false n
  | _ => true

/-- Whether every `var` in the nodes of a list stands in a statement position. -/
def placedAll (s : Bool) : List Node → Bool
  | [] => true
  | n :: rest => placed s n && placedAll s rest

/-- Whether every `var` in the values of named fields stands in a statement position. -/
def placedFields : List (String × Node) → Bool
  | [] => true
  | (_, n) :: rest => placed false n && placedFields rest

/-- Whether every `var` in a catch clause stands in a statement position. -/
def placedHandler (s : Bool) : Option (String × List Node) → Bool
  | none => true
  | some (_, b) => placedAll s b

/-- Whether every `var` in a `finally` list stands in a statement position. -/
def placedFinalizer (s : Bool) : Option (List Node) → Bool
  | none => true
  | some b => placedAll s b

/-- Whether every `var` in switch clauses stands in a statement position. -/
def placedCases (s : Bool) : List (Node × List Node) → Bool
  | [] => true
  | (t, b) :: rest => placed false t && placedAll s b && placedCases s rest

end

/-- Names that count on a condition. -/
def namesIf (b : Bool) (xs : List String) : List String := if b then xs else []

@[simp] theorem namesIf_nil (b : Bool) : namesIf b [] = [] := by
  cases b <;> rfl

@[simp] theorem namesIf_false (xs : List String) : namesIf false xs = [] := rfl

theorem namesIf_append (b : Bool) (xs ys : List String) :
    namesIf b (xs ++ ys) = namesIf b xs ++ namesIf b ys := by
  cases b <;> rfl

section

variable {c : String}

mutual

/-- The names bound outside function literals are those of the statement positions, in order. -/
theorem outerNames_placed (s : Bool) (around : List (List String)) (n : Node)
    (h : n.placed s = true) :
    outerNames (n.references c around) = namesIf (s && around.isEmpty) n.vars := by
  cases n with
  | absent | num _ | string _ | atom _ | regexp _ _ | breakTo _ | continueTo _ | debugger =>
    simp [references, vars, outerNames]
  | name x => simp [references, vars, outerNames, Reference.isOuter]
  | var ds =>
    rw [placed, Bool.and_eq_true] at h
    rw [references, vars, outerNames_bindings around ds h.2, h.1, Bool.true_and]
  | block b | splice b | defun _ _ b =>
    rw [placed] at h
    rw [references, vars, outerNames_placedAll s around b h]
  | toplevel b | array b | seq b =>
    rw [placed] at h
    rw [references, outerNames_placedAll false around b h]
    simp [vars]
  | function f ps b =>
    rw [placed] at h
    -- inside a function literal no binding counts
    have hin : (around ++ [ps ++ varsAll b]).isEmpty = false := by simp
    rw [references, outerNames_placedAll true _ b h, hin]
    simp [vars]
  | object ps | const ps =>
    rw [placed] at h
    rw [references, outerNames_fields around ps h]
    simp [vars]
  | call f as | new f as =>
    rw [placed, Bool.and_eq_true] at h
    rw [references, outerNames_append, outerNames_placed false around f h.1,
      outerNames_placedAll false around as h.2]
    simp [vars]
  | unary _ _ e | stat e | ret e | throw e =>
    rw [placed] at h
    rw [references, outerNames_placed false around e h]
    simp [vars]
  | dot b f =>
    rw [placed] at h
    rw [references]
    split
    · simp [outerNames, Reference.isOuter, vars]
    · rw [← List.singleton_append, outerNames_append, outerNames_placed false around b h]
      simp [outerNames, Reference.isOuter, vars]
  | label _ b =>
    rw [placed] at h
    rw [references, vars, outerNames_placed s around b h]
  | binary _ a b | assign _ a b | sub a b =>
    rw [placed, Bool.and_eq_true] at h
    rw [references, outerNames_append, outerNames_placed false around a h.1,
      outerNames_placed false around b h.2]
    simp [vars]
  | whileLoop t b | doLoop t b | withObject t b =>
    rw [placed, Bool.and_eq_true] at h
    rw [references, vars, outerNames_append, outerNames_placed false around t h.1,
      outerNames_placed s around b h.2, Bool.false_and, namesIf_false, List.nil_append]
  | conditional a b d =>
    rw [placed, Bool.and_eq_true, Bool.and_eq_true] at h
    rw [references, outerNames_append, outerNames_append, outerNames_placed false around a h.1.1,
      outerNames_placed false around b h.1.2, outerNames_placed false around d h.2]
    simp [vars]
  | ifElse t y n =>
    rw [placed, Bool.and_eq_true, Bool.and_eq_true] at h
    rw [references, vars, outerNames_append, outerNames_append,
      outerNames_placed false around t h.1.1, outerNames_placed s around y h.1.2,
      outerNames_placed s around n h.2, namesIf_append, Bool.false_and, namesIf_false,
      List.nil_append]
  | forIn i o b =>
    rw [placed, Bool.and_eq_true, Bool.and_eq_true] at h
    rw [references, vars, outerNames_append, outerNames_append,
      outerNames_placed s around i h.1.1, outerNames_placed false around o h.1.2,
      outerNames_placed s around b h.2, namesIf_append, Bool.false_and, namesIf_false,
      List.append_nil]
  | forLoop i t st b =>
    rw [placed, Bool.and_eq_true, Bool.and_eq_true, Bool.and_eq_true] at h
    obtain ⟨⟨⟨hi, ht⟩, hst⟩, hb⟩ := h
    rw [references, vars, outerNames_append, outerNames_append, outerNames_append,
      outerNames_placed s around i hi, outerNames_placed false around t ht,
      outerNames_placed false around st hst, outerNames_placed s around b hb, namesIf_append]
    simp
  | tryCatch b hd f =>
    rw [placed, Bool.and_eq_true, Bool.and_eq_true] at h
    obtain ⟨⟨hb, hh⟩, hf⟩ := h
    rw [references, outerNames_append, outerNames_append, outerNames_placedAll s around b hb,
      outerNames_handler s around hd hh, outerNames_finalizer s around f hf, ← namesIf_append,
      ← namesIf_append]
    cases hd <;> cases f <;> simp [vars]
  | switch d cs =>
    rw [placed, Bool.and_eq_true] at h
    rw [references, vars, outerNames_append, outerNames_placed false around d h.1,
      outerNames_cases s around cs h.2, Bool.false_and, namesIf_false, List.nil_append]
termination_by structural n

theorem outerNames_placedAll (s : Bool) (around : List (List String)) (ns : List Node)
    (h : placedAll s ns = true) :
    outerNames (referencesAll c around ns) = namesIf (s && around.isEmpty) (varsAll ns) := by
  cases ns with
  | nil => simp [referencesAll, varsAll, outerNames]
  | cons n ns =>
    rw [placedAll, Bool.and_eq_true] at h
    rw [referencesAll, varsAll, outerNames_append, outerNames_placed s around n h.1,
      outerNames_placedAll s around ns h.2, namesIf_append]
termination_by structural ns

theorem outerNames_fields (around : List (List String)) (ps : List (String × Node))
    (h : placedFields ps = true) : outerNames (referencesFields c around ps) = [] := by
  cases ps with
  | nil => simp [referencesFields, outerNames]
  | cons p ps =>
    obtain ⟨k, n⟩ := p
    rw [placedFields, Bool.and_eq_true] at h
    rw [referencesFields, outerNames_append, outerNames_placed false around n h.1,
      outerNames_fields around ps h.2]
    simp
termination_by structural ps

theorem outerNames_bindings (around : List (List String)) (ds : List (String × Node))
    (h : placedFields ds = true) :
    outerNames (referencesBindings c around ds) = namesIf around.isEmpty (ds.map (·.1)) := by
  cases ds with
  | nil => simp [referencesBindings, outerNames]
  | cons d ds =>
    obtain ⟨x, n⟩ := d
    rw [placedFields, Bool.and_eq_true] at h
    have hname : outerNames [⟨x, .binding, around⟩] = namesIf around.isEmpty [x] := by
      cases around <;> simp [outerNames, Reference.isOuter, namesIf]
    rw [referencesBindings, ← List.singleton_append, outerNames_append, outerNames_append, hname,
      outerNames_placed false around n h.1, outerNames_bindings around ds h.2, Bool.false_and,
      namesIf_false, List.nil_append, ← namesIf_append, List.map_cons, List.singleton_append]
termination_by structural ds

theorem outerNames_handler (s : Bool) (around : List (List String))
    (hd : Option (String × List Node)) (h : placedHandler s hd = true) :
    outerNames (referencesHandler c around hd) =
      namesIf (s && around.isEmpty) (hd.elim [] fun p => varsAll p.2) := by
  cases hd with
  | none => simp [referencesHandler, outerNames]
  | some hd =>
    obtain ⟨x, b⟩ := hd
    rw [placedHandler] at h
    rw [referencesHandler, outerNames_placedAll s around b h]
    rfl
termination_by structural hd

theorem outerNames_finalizer (s : Bool) (around : List (List String)) (f : Option (List Node))
    (h : placedFinalizer s f = true) :
    outerNames (referencesFinalizer c around f) =
      namesIf (s && around.isEmpty) (f.elim [] varsAll) := by
  cases f with
  | none => simp [referencesFinalizer, outerNames]
  | some b =>
    rw [placedFinalizer] at h
    rw [referencesFinalizer, outerNames_placedAll s around b h]
    rfl
termination_by structural f

theorem outerNames_cases (s : Bool) (around : List (List String)) (cs : List (Node × List Node))
    (h : placedCases s cs = true) :
    outerNames (referencesCases c around cs) =
      namesIf (s && around.isEmpty) (varsCases cs) := by
  cases cs with
  | nil => simp [referencesCases, varsCases, outerNames]
  | cons cl cs =>
    obtain ⟨t, b⟩ := cl
    rw [placedCases, Bool.and_eq_true, Bool.and_eq_true] at h
    rw [referencesCases, varsCases, outerNames_append, outerNames_append,
      outerNames_placed false around t h.1.1, outerNames_placedAll s around b h.1.2,
      outerNames_cases s around cs h.2, namesIf_append, Bool.false_and, namesIf_false,
      List.nil_append]
termination_by structural cs

end

end

end Node

namespace Program

/-! ## §2. Names in the order of their first declaration. -/

theorem Scope.names_declare (σ : Scope) (x : String) :
    (σ.declare x).names = if x ∈ σ.names then σ.names else σ.names ++ [x] := by
  unfold Scope.declare Scope.declared
  simp only [List.contains_iff_mem]
  split <;> rfl

/-- Declaring names one after the other keeps the first of each. -/
theorem Scope.names_declareAll {σ : Scope} (hσ : σ.names = []) (xs : List String) :
    (σ.declareAll xs).names = xs.eraseDups := by
  induction xs using List.reverseRecOn with
  | nil => exact hσ
  | append_singleton xs x ih =>
    have hlast : σ.declareAll (xs ++ [x]) = (σ.declareAll xs).declare x := by
      simp [Scope.declareAll]
    rw [hlast, Scope.names_declare, ih, List.eraseDups_append]
    simp only [List.mem_eraseDups]
    by_cases hx : x ∈ xs <;> simp [List.removeAll, hx, List.eraseDups_cons]

theorem Naming.scope_names (naming : Naming) (body : List Node) :
    (naming.scope body).names = (Node.varsAll body).eraseDups :=
  Scope.names_declareAll rfl _

/-! ## §3. Units. -/

/-- The locals of a unit are the names that its `var` statements bind outside function literals,
    each once and in the order of their first binding; a walk adds none.  A bare name that is among
    them is hidden by a function literal, and no `var` is left outside function literals.

    A field of the container is among the locals, unless it was not made for one: where the path of
    return values begins with the container, it is the next part of the path; where the container is
    called like a temp of the unit, it is a member that the unit accesses, since the temp may stand
    for the base of the access. -/
theorem transform_closes_names (naming : Naming) (isAsync : String → Bool) (body : List Node)
    (t : Transformed) (h : (transform naming isAsync (.toplevel body)).1 = .ok t)
    (hplaced : Node.placedAll true body = true)
    (hfree : ∀ r ∈ Node.referencesAll naming.container [] body,
      r.use ≠ .redirected ∧ (r.use ≠ .member → Meaning.Free naming r.name)) :
    t.locals =
        (Reference.outerNames (Node.referencesAll naming.container [] body)).eraseDups ∧
      t.locals = (State.start naming body).scope.names ∧
      ∀ r ∈ Instr.referencesAll naming.container t.program ++
          t.tree.references naming.container [],
        (r.use = .bare → r.name ∈ t.locals → r.Hidden) ∧
        (r.use = .redirected → r.name ∈ t.locals ∨
          naming.OwnMember t.stats.temps (Node.referencesAll naming.container [] body) r.name) ∧
        (r.use = .binding → r.around ≠ []) := by
  have houter := Node.outerNames_placedAll (c := naming.container) true [] body hplaced
  simp only [List.isEmpty_nil, Bool.and_self, Node.namesIf, if_true] at houter
  have hmem : ∀ x, ⟨x, .binding, []⟩ ∈ Node.referencesAll naming.container [] body ↔
      x ∈ (naming.scope body).names := by
    intro x
    rw [← Reference.mem_outerNames, houter, naming.scope_names, List.mem_eraseDups]
  -- every name that may be declared on the way is known from the beginning
  have hsrc : ∀ r ∈ Node.referencesAll naming.container [] body,
      (naming.setting body t.stats.temps (Node.referencesAll naming.container [] body)
        (· ∈ (naming.scope body).names)).Source r := by
    intro r hr
    obtain ⟨hno, hname⟩ := hfree r hr
    obtain ⟨x, use, around⟩ := r
    cases use with
    | bare => exact (hname nofun).container
    | redirected => exact hno rfl
    | member => exact ⟨_, hr, rfl, rfl⟩
    | binding =>
      intro ha
      cases (show around = [] from ha)
      exact (hmem x).mp hr
  obtain ⟨⟨σ, hlocals, hnear⟩, hacc⟩ := transform_explained h rfl hsrc
  have hstart : t.locals = (naming.scope body).names :=
    hlocals.trans (hnear.names_eq fun x hx => hx)
  refine ⟨?_, hstart, fun r hr => ?_⟩
  · rw [houter, hstart, naming.scope_names]
  · have hr := hacc r hr
    unfold Reference.InPath Setting.Accounted at hr
    refine ⟨fun huse hx => ?_, fun huse => ?_, fun huse => ?_⟩ <;> rw [huse] at hr
    · rw [hstart] at hx
      -- a local name is one of the source, so the program does not use it for itself
      have hname := (hfree _ ((hmem r.name).mpr hx)).2 nofun
      rcases hr with hroot | ⟨k, -, hk⟩ | ⟨-, hhidden | hnew⟩
      · exact absurd hroot hname.root
      · exact absurd hk (hname.ne_temp k)
      · exact hhidden
      · exact absurd hx hnew
    · rw [hstart]
      rcases hr with hpath | hown | ⟨hknown, -⟩
      · exact .inr (.inl hpath)
      · exact .inr (.inr hown)
      · exact .inl (hknown.elim id id)
    · exact hr.resolve_left id

/-- A use before the declaration, a loop, a nested declaration and a function literal with a
    parameter of the same name:
    `f(x); for (var x = 1; x; x--) g = function (x) { return x; }; function h() { var y; }`. -/
theorem transform_closes_names_of_loop :
    let body : List Node := [.stat (.call (.name "f") [.name "x"]),
      .forLoop (.var [("x", .num "1")]) (.name "x") (.unary .after "--" (.name "x"))
        (.stat (.assign "" (.name "g") (.function "" ["x"] [.ret (.name "x")]))),
      .defun "h" [] [.var [("y", .absent)]]]
    ∃ t, (transform {} (fun _ => false) (.toplevel body)).1 = .ok t ∧
      Node.placedAll true body = true ∧
      (∀ r ∈ Node.referencesAll "$$locals" [] body,
        r.use ≠ .redirected ∧ (r.use ≠ .member → Meaning.Free {} r.name)) ∧
      t.locals = (Reference.outerNames (Node.referencesAll "$$locals" [] body)).eraseDups ∧
      t.locals = (State.start {} body).scope.names ∧
      ∀ r ∈ Instr.referencesAll "$$locals" t.program ++ t.tree.references "$$locals" [],
        (r.use = .bare → r.name ∈ t.locals → r.Hidden) ∧
        (r.use = .redirected → r.name ∈ t.locals ∨
          Naming.OwnMember {} t.stats.temps (Node.referencesAll "$$locals" [] body) r.name) ∧
        (r.use = .binding → r.around ≠ []) := by
  intro body
  obtain ⟨t, ht⟩ : ∃ t, (transform {} (fun _ => false) (.toplevel body)).1 = .ok t :=
    exists_of_isOk (by decide +kernel)
  have hplaced : Node.placedAll true body = true := by decide
  have hfree : ∀ r ∈ Node.referencesAll "$$locals" [] body,
      r.use ≠ .redirected ∧ (r.use ≠ .member → Meaning.Free {} r.name) := by
    have huse : ∀ r ∈ Node.referencesAll "$$locals" [] body, r.use ≠ .redirected := by decide
    have hname : ∀ x ∈ (Node.referencesAll "$$locals" [] body).map (·.name), Meaning.Free {} x :=
      Meaning.free_of Meaning.slot_default (by decide)
    exact fun r hr => ⟨huse r hr, fun _ => hname r.name (List.mem_map_of_mem hr)⟩
  exact ⟨t, ht, hplaced, hfree, transform_closes_names {} (fun _ => false) body t ht hplaced hfree⟩

end Program

end Resumable
