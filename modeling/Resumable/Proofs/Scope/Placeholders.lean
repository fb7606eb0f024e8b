/-
  Resumable.Proofs.Scope.Placeholders — what stands around the value of a deferred binding.

  A `var` binding whose value is split is deferred: its field is set to null first, then the code
  of the value runs, then the field gets the value.  All this stands in a row, so nothing but the
  code of the value can see the null.  It does not, unless the value uses the name itself: a use
  outside the function literals that bind it reads the field, and so the null.

  Main statements:
    * `Emits.sites_bound`           — where the code of a binding stands, by induction;
    * `reaches_of_redirected`       — where a use of the field in the code of a value comes from;
    * `transform_defers_bindings`   — both, for every binding of a unit;
    * `transform_reads_placeholder` — a value that reads the null.
-/
import Resumable.Proofs.Scope.Mentions
import Resumable.Proofs.Scope.Redirection
import Resumable.Proofs.Walk.Layout
import Resumable.Proofs.Walk.Splits

namespace Resumable

/-! ## §1. Bindings. -/

namespace Node

/-- The bindings of a list that have a value. -/
def valued (ds : List (String × Node)) : List (String × Node) := ds.filter fun d => !d.2.isAbsent

mutual

/-- The bindings with a value that are walked in a statement, in order. -/
def bound : Node → List (String × Node)
  | var ds => valued ds
  | block b => boundAll b
  | splice ns => boundAll ns
  | ifElse _ y n => bound y ++ bound n
  | forLoop i _ _ b => bound i ++ bound b
  | defun _ _ b => boundAll b
  | _ => []

/-- The bindings with a value that are walked in a list of statements. -/
def boundAll : List Node → List (String × Node)
  | [] => []
  | n :: rest => bound n ++ boundAll rest

end

theorem bound_of_isExpression {n : Node} (h : n.isExpression = true) : n.bound = [] := by
  cases n with
  | var _ | block _ | splice _ | ifElse _ _ _ | forLoop _ _ _ _ | defun _ _ _ => cases h
  | _ => rfl

theorem bound_of_isPassed {n : Node} (h : Program.Walk.isPassed n = true) : n.bound = [] := by
  cases n <;> cases h <;> rfl

end Node

/-- A use that may lead to the field of a name: of the container, or of the name where no function
    literal hides it. -/
def Reference.Reaches (c x : String) (r : Reference) : Prop :=
  match r.use with
  | .bare => r.name = c ∨ r.name = x ∧ ¬ r.Hidden
  | .redirected => True
  | .member => False
  | .binding => r.around = [] ∧ r.name = x

namespace Program

/-- Copying keeps the declared names apart. -/
theorem Walk.nodup_copyScope {σ : Scope} (n : Node) (h : σ.names.Nodup) :
    (Walk.copyScope σ n).names.Nodup :=
  Walk.copyScope_maintains (I := fun σ => σ.names.Nodup)
    (fun _ x h => Setting.nodup_declare h x) h n

namespace Walk

open Instr (Within)

/-! ## §2. Where the code of a binding stands. -/

/-- The bindings with a value of what is walked. -/
def Job.bound : Job → List (String × Node)
  | .stmt n | .region n => n.bound
  | .stmts ns => Node.boundAll ns
  | .bindings ds => Node.valued ds
  | _ => []

theorem Job.Leads.bound {job job' : Job} (h : job.Leads job') : job.bound = job'.bound := by
  cases h with
  | expression hn => exact Node.bound_of_isExpression hn
  | stat | var | block | splice => simp [Job.bound, Node.bound]
  | region | step => rfl

theorem Job.Void.bound {job : Job} (h : job.Void) : job.bound = [] := by
  cases h <;> simp [Job.bound, Node.bound]

/-- The code of a binding: the null in front if its value is split, the code of the value, and the
    assignment of the value. -/
inductive Defers (env : Surface) (σ : Scope) : String × Node → List Instr → Scope → Prop
  | mk {σ' : Scope} {x : String} {init v : Node} {split : Bool} {code : List Instr}
      (value : Emits env (.expr init) (σ.declare x) [v] split code σ') :
      Defers env σ (x, init) (placeholder split (σ.field x) ++ code ++ [.set (σ.field x) v]) σ'

/-- The code of a binding, in a row and in one list of some code, in a scope between two others
    whose names are all different. -/
def Sited (env : Surface) (σ σ' : Scope) (code : List Instr) (d : String × Node)
    (own : List Instr) : Prop :=
  Within own code ∧ ∃ σ₁ σ₂, Defers env σ₁ d own σ₂ ∧ σ₁.names.Nodup ∧ σ.Grows σ₁ ∧ σ₂.Grows σ'

section

variable {env : Surface} {job : Job} {σ σ' σ₁ σ₂ : Scope} {ds es : List (String × Node)}
  {vs : List Node} {split : Bool} {code list walk walk' : List Instr}

theorem sites_mono (rows : Rows (Sited env σ₁ σ₂ code) walk ds)
    (hcode : ∀ own, Within own code → Within own list) (hσ : σ.Grows σ₁) (hσ' : σ₂.Grows σ') :
    Rows (Sited env σ σ' list) walk ds := by
  refine rows.imp fun d own hown => ?_
  obtain ⟨hin, σ₃, σ₄, hdefers, hnodup, h₁, h₂⟩ := hown
  exact ⟨hcode own hin, σ₃, σ₄, hdefers, hnodup, hσ.trans h₁, h₂.trans hσ'⟩

/-- Nothing stands where an expression is missing. -/
theorem Emits.present {n : Node} (h : Emits env (.expr n) σ vs split code σ') :
    n.isAbsent = false := by
  cases n with
  | absent =>
    cases h with
    | literal hf | copied hf | captured hf => cases hf
    | kept hf => rcases hf with hf | hf <;> cases hf
    | leads hl => cases hl
    | void hv => cases hv
  | _ => rfl

/-- A walk declares no name twice. -/
theorem Emits.nodup (h : Emits env job σ vs split code σ') :
    σ.names.Nodup → σ'.names.Nodup := by
  induction h with
  | reference | literal | operandsNil | void | stmtsNil | bindingsNil => exact id
  | copied _ | passed _ => exact nodup_copyScope _
  | kept _ _ ih | captured _ _ ih | assigned _ _ ih | called _ ih | effect _ ih | leads _ _ ih
  | test _ ih | declaration _ ih => exact ih
  | operandsCons _ _ ih ih' | stmtsCons _ _ ih ih' => exact ih' ∘ ih
  | branch _ _ _ ih ih₁ ih₂ => exact ih₂ ∘ ih₁ ∘ ih
  | loop _ _ _ _ ih ih₁ ih₂ ih₃ => exact ih₃ ∘ ih₂ ∘ ih₁ ∘ ih
  | bare _ ih => exact fun hσ => ih (Setting.nodup_declare hσ _)
  | bound _ _ ih ih' => exact fun hσ => ih' (ih (Setting.nodup_declare hσ _))

/-- Every binding has its code; the codes follow each other as the bindings do. -/
theorem Emits.sites_bound (h : Emits env job σ vs split code σ') :
    σ.names.Nodup → Rows (Sited env σ σ' code) (Instr.walkAll code) job.bound := by
  induction h with
  | leads hl _ ih =>
    intro hσ
    rw [hl.bound]
    exact ih hσ
  | void hv =>
    intro _
    rw [hv.bound]
    exact .nil
  | passed hp =>
    intro _
    rw [Job.bound, Node.bound_of_isPassed hp]
    exact .nil
  | stmtsCons head tail ih ih' =>
    intro hσ
    rw [Job.bound, Node.boundAll, Instr.walkAll_append]
    refine .append (sites_mono (ih hσ) ?_ (.refl _) tail.grows)
      (sites_mono (ih' (head.nodup hσ)) ?_ head.grows (.refl _))
    · exact fun _ hin => hin.mono (List.prefix_append _ _).isInfix
    · exact fun _ hin => hin.mono (List.suffix_append _ _).isInfix
  | branch cond yesDone noDone _ ih ih' =>
    intro hσ
    have hσ₁ := cond.nodup hσ
    rw [Job.bound, Node.bound]
    refine Rows.sublist (.append (sites_mono (ih hσ₁) ?_ cond.grows noDone.grows)
      (sites_mono (ih' (yesDone.nodup hσ₁)) ?_ (cond.grows.trans yesDone.grows) (.refl _))) ?_
    · exact fun _ hin => hin.last List.mem_cons_self
    · exact fun _ hin => hin.last (List.mem_cons_of_mem _ List.mem_cons_self)
    · refine .trans ?_ (Instr.walkAll_inner_sublist _ _)
      rw [Instr.inner, Instr.walkAll_append]
      exact List.sublist_append_right _ _
  | loop initDone testDone stepDone bodyDone ih _ _ ih' =>
    intro hσ
    have hahead := testDone.grows.trans stepDone.grows
    have hσ₃ := stepDone.nodup (testDone.nodup (initDone.nodup hσ))
    rw [Job.bound, Node.bound]
    -- a walk meets the lists of the test and of the step in between; they have no bindings
    refine Rows.sublist (.append (sites_mono (ih hσ) ?_ (.refl _) (hahead.trans bodyDone.grows))
      (sites_mono (ih' hσ₃) ?_ (initDone.grows.trans hahead) (.refl _))) ?_
    · exact fun _ hin => hin.mono (List.prefix_append _ _).isInfix
    · exact fun _ hin =>
        hin.last (List.mem_cons_of_mem _ (List.mem_cons_of_mem _ List.mem_cons_self))
    · refine .trans ?_ (Instr.walkAll_inner_sublist _ _)
      rw [Instr.inner, Instr.walkAll_append]
      exact (List.Sublist.refl _).append (List.sublist_append_right _ _)
  | @declaration σ σ' name params ns vs split list body ih =>
    intro hσ
    rw [Job.bound, Node.bound]
    refine Rows.sublist (sites_mono (ih hσ) ?_ (.refl _) (.refl _)) ?_
    · exact fun _ hin => .deeper List.mem_cons_self List.mem_cons_self hin
    · exact Instr.walkAll_inner_sublist [] (.defun name params list)
  | @bare σ σ' x ds vs split code rest ih =>
    intro hσ
    have hrest := ih (Setting.nodup_declare hσ x)
    refine Rows.sublist (sites_mono hrest ?_ (Scope.declares_declare σ x).toGrows (.refl _)) ?_
    · exact fun _ hin => hin.mono (List.suffix_cons _ _).isInfix
    · exact List.sublist_append_right _ _
  | @bound σ σ₁ σ₂ x init v ds vs split split' code code' value rest _ ih' =>
    intro hσ
    have hσ₁ := value.nodup (Setting.nodup_declare hσ x)
    have hgrows := (Scope.declares_declare σ x).toGrows.trans value.grows
    rw [Job.bound, Node.valued, List.filter_cons_of_pos (by simp [value.present]),
      List.append_cons, Instr.walkAll_append]
    refine .append (.single ⟨.here (List.prefix_append _ _).isInfix, σ, σ₁, .mk value, hσ, .refl _,
      rest.grows⟩ (Instr.sublist_walkAll _)) (sites_mono (ih' hσ₁) ?_ hgrows (.refl _))
    exact fun _ hin => hin.mono (List.suffix_append _ _).isInfix
  | _ => exact fun _ => .nil

end

end Walk

/-! ## §3. Where a use of the field comes from. -/

section

variable {naming : Naming} {isAsync : String → Bool} {σ σ' : Scope} {init v : Node}
  {split : Bool} {code : List Instr} {temps : Nat}

/-- A scope of a walk, while any name may be declared. -/
theorem near_of_grows (temps : Nat) (source : List Reference) (h : (naming.scope []).Grows σ)
    (hnodup : σ.names.Nodup) : (naming.setting [] temps source fun _ => True).Near σ :=
  ⟨h.container, h.stem, List.nil_prefix, fun _ _ => .inr trivial, hnodup⟩

/-- In the code of a value the field of a name is used only if the value has a use that leads
    there. -/
theorem reaches_of_redirected {S : Setting}
    (hS : S = naming.setting [] temps (init.references naming.container []) fun _ => True)
    (hσ : S.Near σ)
    (h : Walk.Emits (naming.surface isAsync) (.expr init) σ [v] split code σ')
    (htemps : σ'.temps ≤ temps) {r : Reference}
    (hr : r ∈ Instr.referencesAll naming.container code ++ v.references naming.container [])
    (huse : r.use = .redirected) :
    naming.OwnMember temps (init.references naming.container []) r.name ∨
      ∃ q ∈ init.references naming.container [], q.Reaches naming.container r.name := by
  subst hS
  by_cases hsrc : ∀ q ∈ init.references naming.container [],
      (naming.setting [] temps (init.references naming.container []) fun _ => True).SourceOf
        (· ≠ r.name) q
  · -- a value without such a use accounts for uses of other fields only
    obtain ⟨-, hcode, hv⟩ := h.explained hσ hsrc htemps
    have hexplains : Walk.Explains _ (· ≠ r.name) (naming.surface isAsync) r :=
      (List.mem_append.mp hr).elim (hcode r) fun hr => .inr (hv v List.mem_cons_self r hr)
    rcases hexplains with hpath | hacc
    · have hpath := naming.dotted_references r hpath
      rw [Reference.InPath, huse] at hpath
      exact .inl (.inl hpath)
    · rw [Setting.AccountedOf, huse] at hacc
      rcases hacc with hown | ⟨-, -, hne⟩
      · exact .inl (.inr hown)
      · exact absurd rfl hne
  · simp only [not_forall] at hsrc
    obtain ⟨q, hq, hnot⟩ := hsrc
    refine .inr ⟨q, hq, ?_⟩
    obtain ⟨y, use, around⟩ := q
    cases use with
    | redirected => trivial
    | member => exact absurd ⟨_, hq, rfl, rfl⟩ hnot
    | bare =>
      simp only [Setting.SourceOf, not_and_or, not_or, not_not] at hnot
      exact hnot.imp id And.symm
    | binding =>
      simp only [Setting.SourceOf, Classical.not_imp, not_and_or, not_not] at hnot
      exact ⟨hnot.1, hnot.2.resolve_left (fun h => h trivial)⟩

end

/-! ## §4. Units. -/

/-- The code of a binding in a program: in a row and in one list, the null in front if the value
    has a call, the code of the value, and the assignment of the value.  Neither the code nor the
    value uses the field unless the value uses the name, or the program reads the field for
    itself. -/
def Deferred (naming : Naming) (isAsync : String → Bool) (t : Transformed)
    (d : String × Node) (own : List Instr) : Prop :=
  let field : Node := .dot (.name naming.container) d.1
  Instr.Within own t.program ∧
    ∃ σ σ' v split code,
      Walk.Emits (naming.surface isAsync) (.expr d.2) σ [v] split code σ' ∧
      own = (if split then [.set field .null] else []) ++ code ++ [.set field v] ∧
      (split = true ↔ d.2.analysedCalls ≠ []) ∧ (split = true → code ≠ []) ∧
      ∀ r ∈ Instr.referencesAll naming.container code ++ v.references naming.container [],
        r.use = .redirected → r.name = d.1 →
          naming.OwnMember t.stats.temps (d.2.references naming.container []) d.1 ∨
            ∃ q ∈ d.2.references naming.container [], q.Reaches naming.container d.1

/-- Every `var` binding with a value that is walked has its code in the program, in the order of
    the source.  If the value is split, nothing stands between the null and the code of the value
    nor between that and the assignment of the value, and only a value that uses the name outside
    the function literals that bind it, or that uses the container, can read the null. -/
theorem transform_defers_bindings (naming : Naming) (isAsync : String → Bool) (body : List Node)
    (t : Transformed) (h : (transform naming isAsync (.toplevel body)).1 = .ok t) :
    ∃ codes : List (List Instr), codes.flatten.Sublist (Instr.walkAll t.program) ∧
      List.Forall₂ (Deferred naming isAsync t) (Node.boundAll body) codes := by
  obtain ⟨body', σ, heq, hd⟩ := transform_emits h
  cases heq
  obtain ⟨vs, split, he⟩ := hd.emits
  have hstart : (naming.scope []).Grows (naming.scope body) := by
    have hgrows := (naming.declares_scope body).toGrows
    exact ⟨hgrows.container, hgrows.stem, List.nil_prefix, hgrows.temps⟩
  have hrows := he.sites_bound (Setting.nodup_declareAll List.nodup_nil _)
  refine hrows.imp fun d own hown => ?_
  obtain ⟨hin, σ₁, σ₂, hdefers, hnodup, hgrows, hgrows'⟩ := hown
  have htemps : σ₂.temps ≤ t.stats.temps := by
    rw [hd.stats]
    exact hgrows'.temps
  cases hdefers with
  | @mk _ x init v split code value =>
    have hfrom := hstart.trans hgrows
    have hfield : σ₁.field x = .dot (.name naming.container) x :=
      congrArg (fun c => Node.dot (.name c) x) hfrom.container
    have hnear := near_of_grows t.stats.temps (init.references naming.container []) hfrom hnodup
    have hnear := hnear.declare (x := x) trivial
    refine ⟨hin, σ₁.declare x, σ₂, v, split, code, value, ?_, value.split_iff, fun hs hnil => ?_,
      fun r hr huse hname => ?_⟩
    · rw [hfield, Walk.placeholder]
    · exact value.calls_of_split hs (by rw [hnil]; rfl)
    · cases hname
      exact reaches_of_redirected rfl hnear value htemps hr huse

/-- A deferred binding in a loop whose value has a function literal with a parameter of the same
    name, and one that is not deferred:
    `for (var i = f(i); i; i--) { var x = g(function (x) { return x; }), y = x; }`. -/
theorem transform_defers_bindings_of_loop :
    let body : List Node := [.forLoop (.var [("i", .call (.name "f") [.name "i"])]) (.name "i")
      (.unary .after "--" (.name "i"))
      (.block [.var [("x", .call (.name "g") [.function "" ["x"] [.ret (.name "x")]]),
        ("y", .name "x")]])]
    ∃ t, (transform {} (fun _ => false) (.toplevel body)).1 = .ok t ∧
      ∃ codes : List (List Instr), codes.flatten.Sublist (Instr.walkAll t.program) ∧
        List.Forall₂ (Deferred {} (fun _ => false) t) (Node.boundAll body) codes := by
  intro body
  obtain ⟨t, ht⟩ : ∃ t, (transform {} (fun _ => false) (.toplevel body)).1 = .ok t :=
    exists_of_isOk (by decide +kernel)
  exact ⟨t, ht, transform_defers_bindings {} (fun _ => false) body t ht⟩

/-- Whether a program sets the field of `x` to null and adds to it before it sets it again. -/
def readsPlaceholder : List Instr → Bool
  | [.leaf "stat" (.stat (.assign "" (.dot (.name "$$locals") "x") (.num "1"))) false,
      .leaf "stat" (.stat (.assign "" (.dot (.name "$$locals") "x") (.atom "null"))) false,
      .leaf "call" (.stat (.call (.name "f") [])) false,
      .leaf "stat" (.stat (.assign "" _ _)) false,
      .leaf "stat" (.stat (.assign "" _ (.binary "+" (.dot (.name "$$locals") "x") _))) false,
      .leaf "stat" (.stat (.assign "" (.dot (.name "$$locals") "x") _)) false] => true
  | _ => false

/-- `var x = 1; var x = x + f();` is carried out as `var x = 1; var x = null + f();` would be: an
    instruction between the null and the assignment of the value reads the field. -/
theorem transform_reads_placeholder :
    let body : List Node := [.var [("x", .num "1")],
      .var [("x", .binary "+" (.name "x") (.call (.name "f") []))]]
    let field : Node := .dot (.name "$$locals") "x"
    ∃ t temp returned sum right value,
      (transform {} (fun _ => false) (.toplevel body)).1 = .ok t ∧
      let code : List Instr := [.leaf "call" (.stat (.call (.name "f") [])) false,
        .set temp returned, .set sum (.binary "+" field right)]
      t.program = [.set field (.num "1")] ++
        ([.set field .null] ++ code ++ [.set field value]) ∧
      ⟨"x", .redirected, []⟩ ∈ Instr.referencesAll "$$locals" code := by
  intro body field
  obtain ⟨t, ht, hshape⟩ := exists_of_okAnd
    (r := (transform {} (fun _ => false) (.toplevel body)).1)
    (fun t => readsPlaceholder t.program) (by decide +kernel)
  unfold readsPlaceholder at hshape
  split at hshape
  case h_2 => cases hshape
  case h_1 temp returned sum right value hprogram =>
  refine ⟨t, temp, returned, sum, right, value, ht, hprogram, ?_⟩
  simp [field, Instr.referencesAll, Instr.references, Node.references, Node.isNamed, Instr.set,
    Instr.stat]

end Program

end Resumable
