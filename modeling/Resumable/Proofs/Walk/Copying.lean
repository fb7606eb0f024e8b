/-
  Resumable.Proofs.Walk.Copying — one induction over `rename`.

  A construct is copied part by part.  Only references are redirected, and a `var` outside function
  literals becomes assignments to the container, in the head of a loop as well.

  A `Copying` says what is asked of a node, what its copy then is, and what holds of the scope on
  the way.  `Sound` lists what has to be shown of it: one rule for the nodes that are copied part
  by part, and one for each of the others.

  Main statement: `rename_sound`.
-/
import Mathlib.Data.List.Forall2
import Resumable.Proofs.Scope.References
import Resumable.Proofs.Tree.Operands

namespace Resumable

namespace Node

/-! ## §1. Nodes with other parts. -/

section

variable {α β : Type} {R : Node → Node → Prop} {n m : Node}

/-- Two trees with the same label in front are related. -/
def Labelled (R : Node → Node → Prop) (p q : α × Node) : Prop := q.1 = p.1 ∧ R p.2 q.2

/-- The second node is the first with another tree at every position, related to the one that
    stood there. -/
structure Replaced (R : Node → Node → Prop) (n m : Node) : Prop where
  kind : m.kind? = n.kind?
  scalars : m.scalars = n.scalars
  positions : List.Forall₂ (Labelled R) n.positions m.positions

theorem labelled_list (p : Position) {ns ms : List Node} (h : List.Forall₂ R ns ms) :
    List.Forall₂ (Labelled R) (ns.map (p, ·)) (ms.map (p, ·)) := by
  rw [List.forall₂_map_left_iff, List.forall₂_map_right_iff]
  exact h.imp fun _ _ h => ⟨rfl, h⟩

theorem labelled_fields (p : Position) {ps qs : List (String × Node)}
    (h : List.Forall₂ (Labelled R) ps qs) :
    List.Forall₂ (Labelled R) (ps.map (fun f => (p, f.2))) (qs.map (fun f => (p, f.2))) := by
  rw [List.forall₂_map_left_iff, List.forall₂_map_right_iff]
  exact h.imp fun _ _ h => ⟨rfl, h.2⟩

theorem labels_eq (f : α → β) {ps qs : List (α × Node)} (h : List.Forall₂ (Labelled R) ps qs) :
    qs.map (fun q => f q.1) = ps.map (fun p => f p.1) := by
  induction h with
  | nil => rfl
  | cons h _ ih => rw [List.map_cons, List.map_cons, ih, h.1]

/-- A try statement whose lists are related, clause by clause. -/
theorem replaced_tryCatch {b b' : List Node} {h h' : Option (String × List Node)}
    {f f' : Option (List Node)} (hb : List.Forall₂ R b b')
    (hh : Option.Rel (fun c c' => c'.1 = c.1 ∧ List.Forall₂ R c.2 c'.2) h h')
    (hf : Option.Rel (List.Forall₂ R) f f') :
    Replaced R (tryCatch b h f) (tryCatch b' h' f') := by
  refine ⟨rfl, ?_, labelled_list _ (List.rel_append (List.rel_append hb ?_) ?_)⟩
  · cases hh with
    | none => cases hf <;> rfl
    | some hh => cases hf <;> simp [scalars, hh.1]
  · cases hh with
    | none => exact .nil
    | some hh => exact hh.2
  · cases hf with
    | none => exact .nil
    | some hf => exact hf

/-- What stands at a position of the second node comes from the same position of the first. -/
theorem Replaced.origin (h : Replaced R n m) {q : Position × Node} (hq : q ∈ m.positions) :
    ∃ p ∈ n.positions, q.1 = p.1 ∧ R p.2 q.2 := by
  have hlists := h.positions
  generalize n.positions = ps, m.positions = qs at hlists hq
  induction hlists with
  | nil => cases hq
  | @cons p q ps qs hpq _ ih =>
    rcases List.mem_cons.mp hq with rfl | hq
    · exact ⟨p, List.mem_cons_self, hpq⟩
    · obtain ⟨p, hp, hpq⟩ := ih hq
      exact ⟨p, List.mem_cons_of_mem _ hp, hpq⟩

end

theorem admits_iterator (n : Node) : Position.iterator.admits n =
    (n.isExpression || (n.kind? == some .var && n.positions.length == 1)) := by
  cases n with
  | var ds =>
    match ds with
    | [] | [_] => rfl
    | _ :: _ :: _ => simp [Position.admits, isExpression, kind?, positions]
  | unary side _ _ => cases side <;> rfl
  | _ => rfl

/-- Another node of the same kind, with as many positions, may stand wherever the first may. -/
theorem Replaced.admits {R : Node → Node → Prop} {n m : Node} (h : Replaced R n m) (p : Position) :
    p.admits m = p.admits n := by
  have hexpr : m.isExpression = n.isExpression := congrArg (·.any Kind.isExpression) h.kind
  cases p with
  | header =>
    show (m.isAbsent || m.kind? == some .var || m.isExpression) =
      (n.isAbsent || n.kind? == some .var || n.isExpression)
    rw [isAbsent_eq_isNone, isAbsent_eq_isNone, h.kind, hexpr]
  | iterator => rw [admits_iterator, admits_iterator, h.kind, hexpr, h.positions.length_eq]
  | _ => exact Position.admits_congr rfl h.kind

theorem ownVars_of_kind? {n : Node} (h : n.kind? ≠ some .var) : n.ownVars = [] := by
  cases n with
  | var ds => exact absurd rfl h
  | _ => rfl

theorem within_of_kind? {n : Node} (h : n.kind? ≠ some .function) (around : List (List String)) :
    n.within around = around := by
  cases n with
  | function f ps b => exact absurd rfl h
  | _ => rfl

section

variable {R : Node → Node → Prop} {n m : Node}

theorem flatMap_vars_eq {ns ms : List Node} (h : List.Forall₂ R ns ms)
    (hR : ∀ a b, R a b → b.vars = a.vars) : ms.flatMap vars = ns.flatMap vars := by
  induction h with
  | nil => rfl
  | cons h _ ih => rw [List.flatMap_cons, List.flatMap_cons, hR _ _ h, ih]

theorem Replaced.ownVars (h : Replaced R n m) : m.ownVars = n.ownVars := by
  by_cases hvar : n.kind? = some .var
  · obtain ⟨ds', rfl⟩ := builtAs (h.kind.trans hvar)
    obtain ⟨ds, rfl⟩ := builtAs hvar
    simpa [Node.ownVars, Node.scalars, Function.comp_def] using congrArg (List.map (·.2)) h.scalars
  · rw [ownVars_of_kind? hvar, ownVars_of_kind? (h.kind ▸ hvar)]

theorem Replaced.statements (h : Replaced R n m) : List.Forall₂ R n.statements m.statements := by
  unfold Node.statements
  rw [h.kind]
  split
  · exact .nil
  · have hpositions := h.positions
    generalize n.positions = ps, m.positions = qs at hpositions
    induction hpositions with
    | nil => exact .nil
    | @cons p q _ _ hpq _ ih =>
      rw [List.filter_cons, List.filter_cons, hpq.1]
      split
      · exact .cons hpq.2 ih
      · exact ih

/-- Where the parts declare the same names, so do the nodes. -/
theorem Replaced.vars (h : Replaced R n m) (hR : ∀ a b, R a b → b.vars = a.vars) :
    m.vars = n.vars := by
  rw [vars_eq, vars_eq n, h.ownVars, flatMap_vars_eq h.statements hR]

/-- Function literals whose parts declare the same names bind the same names. -/
theorem Replaced.within (h : Replaced R n m) (around : List (List String))
    (hR : n.kind? = some .function → ∀ a b, R a b → b.vars = a.vars) :
    m.within around = n.within around := by
  by_cases hfunction : n.kind? = some .function
  · have hvars := hR hfunction
    obtain ⟨f', ps', b', rfl⟩ := builtAs (h.kind.trans hfunction)
    obtain ⟨f, ps, b, rfl⟩ := builtAs hfunction
    have hparams : ps' = ps := by
      simpa [Node.scalars, Function.comp_def] using congrArg (fun l => l.tail.map (·.2)) h.scalars
    have hbody : List.Forall₂ R b b' := by
      have hpositions := h.positions
      simp only [Node.positions, List.forall₂_map_left_iff, List.forall₂_map_right_iff]
        at hpositions
      exact hpositions.imp fun _ _ h => h.2
    rw [Node.within, Node.within, hparams, varsAll_eq, varsAll_eq, flatMap_vars_eq hbody hvars]
  · rw [within_of_kind? hfunction, within_of_kind? (h.kind ▸ hfunction)]

end

end Node

namespace Program

open Node (Labelled Replaced replaced_tryCatch labelled_list labelled_fields labels_eq forall_one
  forall_two forall_three forall_four forall_list forall_fields forall_applied forall_tryCatch
  forall_switch)

/-! ## §2. Triples. -/

/-- A computation that keeps an invariant of the scope and gives a value with a property. -/
def Maintains (I : Scope → Prop) {α : Type} (P : α → Prop) (m : StateM Scope α) : Prop :=
  ∀ σ, I σ → I (m.run σ).2 ∧ P (m.run σ).1

namespace Maintains

variable {I : Scope → Prop} {α β : Type} {P : α → Prop} {Q : β → Prop}

theorem pure {a : α} (h : P a) : Maintains I P (Pure.pure a) := fun _ hσ => ⟨hσ, h⟩

theorem get : Maintains I I (MonadState.get : StateM Scope Scope) := fun _ hσ => ⟨hσ, hσ⟩

theorem update {f : Scope → Scope} (h : ∀ σ, I σ → I (f σ)) :
    Maintains I (fun _ => True) (modify f : StateM Scope Unit) :=
  fun σ hσ => ⟨h σ hσ, trivial⟩

theorem bind {m : StateM Scope α} {f : α → StateM Scope β} (h : Maintains I P m)
    (hf : ∀ a, P a → Maintains I Q (f a)) : Maintains I Q (m >>= f) := by
  intro σ hσ
  obtain ⟨hkept, hok⟩ := h σ hσ
  exact hf _ hok _ hkept

theorem map {m : StateM Scope α} {f : α → β} (h : Maintains I P m) (hf : ∀ a, P a → Q (f a)) :
    Maintains I Q (f <$> m) := by
  intro σ hσ
  obtain ⟨hkept, hok⟩ := h σ hσ
  exact ⟨hkept, hf _ hok⟩

end Maintains

/-! ## §3. Rules. -/

/-- The inside of function literals that bind the given names. -/
def Surroundings.of (around : List (List String)) : Surroundings :=
  { hidden := around.flatten, inFunction := !around.isEmpty }

theorem Surroundings.enter_of (around : List (List String)) (params : List String)
    (body : List Node) :
    (of around).enter params body = of (around ++ [params ++ Node.varsAll body]) := by
  simp [of, enter]

theorem inFunction_of (around : List (List String)) :
    (Surroundings.of around).inFunction = true ↔ around ≠ [] := by
  simp [Surroundings.of]

/-- A node that is copied part by part: it is neither a reference nor, outside function literals,
    bindings or a loop with bindings in its head. -/
structure ByParts (around : List (List String)) (n : Node) : Prop where
  reference : ∀ x, n ≠ .name x
  bindings : around = [] → ∀ ds, n ≠ .var ds
  header : around = [] → ∀ ds c st b, n ≠ .forLoop (.var ds) c st b
  iterator : around = [] → ∀ d o b, n ≠ .forIn (.var [d]) o b

theorem byParts_forLoop {around : List (List String)} {i c st b : Node}
    (h : ∀ ds, i ≠ .var ds) : ByParts around (.forLoop i c st b) := by
  refine ⟨nofun, nofun, ?_, nofun⟩
  rintro - ds _ _ _ ⟨⟩
  exact h ds rfl

theorem byParts_forIn {around : List (List String)} {i o b : Node} (h : ∀ d, i ≠ .var [d]) :
    ByParts around (.forIn i o b) := by
  refine ⟨nofun, nofun, nofun, ?_⟩
  rintro - d _ _ ⟨⟩
  exact h d rfl

/-- What is to be shown of copies. -/
structure Copying where
  /-- What holds of the scope on the way. -/
  invariant : Scope → Prop
  /-- What is asked of a node inside function literals that bind some names. -/
  source : List (List String) → Node → Prop
  /-- What a copy of the node then is. -/
  copy : List (List String) → Node → Node → Prop

namespace Copying

variable (C : Copying)

/-- A binding outside function literals and the assignment that it becomes. -/
inductive Assigned : String × Node → Node → Prop
  | bare {σ : Scope} {x : String} {i : Node} (hσ : C.invariant σ) (hi : i.isAbsent = true) :
      Assigned (x, i) (.assign "" (σ.field x) .null)
  | bound {σ : Scope} {x : String} {i v : Node} (hσ : C.invariant σ) (hi : i.isAbsent = false)
      (hv : C.copy [] i v) : Assigned (x, i) (.assign "" (σ.field x) v)

/-- The rules that `rename` follows. -/
structure Sound : Prop where
  part {around : List (List String)} {n : Node} (hn : C.source around n) :
    ∀ p ∈ n.positions, C.source (n.within around) p.2
  declare {σ : Scope} {ds : List (String × Node)} (hn : C.source [] (.var ds)) :
    ∀ x ∈ ds.map (·.1), C.invariant σ → C.invariant (σ.declare x)
  hidden {around : List (List String)} {x : String} (hx : x ∈ around.flatten)
    (hn : C.source around (.name x)) : C.copy around (.name x) (.name x)
  resolved {around : List (List String)} {σ : Scope} {x : String} (hσ : C.invariant σ)
    (hx : x ∉ around.flatten) (hn : C.source around (.name x)) :
    C.copy around (.name x) (σ.resolve x)
  kept {around : List (List String)} {n m : Node} (hparts : ByParts around n)
    (hn : C.source around n) (hm : Replaced (C.copy (n.within around)) n m) : C.copy around n m
  bindings {ds : List (String × Node)} {es : List Node} (hn : C.source [] (.var ds))
    (hes : List.Forall₂ C.Assigned ds es) : C.copy [] (.var ds) (.stat (assignments es))
  header {ds : List (String × Node)} {es : List Node} {c c' st st' b b' : Node}
    (hn : C.source [] (.forLoop (.var ds) c st b)) (hes : List.Forall₂ C.Assigned ds es)
    (hc : C.copy [] c c') (hst : C.copy [] st st') (hb : C.copy [] b b') :
    C.copy [] (.forLoop (.var ds) c st b) (.forLoop (assignments es) c' st' b')
  iterator {σ : Scope} {x : String} {i o o' b b' : Node} (hσ : C.invariant σ)
    (hn : C.source [] (.forIn (.var [(x, i)]) o b)) (ho : C.copy [] o o') (hb : C.copy [] b b') :
    C.copy [] (.forIn (.var [(x, i)]) o b) (.forIn (σ.field x) o' b')

end Copying

/-- A loop that no declaration heads is copied part by part. -/
theorem rename_forLoop (s : Surroundings) {i : Node} (h : ∀ ds, i ≠ .var ds) (c st b : Node) :
    rename s (.forLoop i c st b) = do
      return .forLoop (← rename s i) (← rename s c) (← rename s st) (← rename s b) := by
  cases i with
  | var ds => exact absurd rfl (h ds)
  | _ => rfl

/-- So is one over an object that no declaration of one name heads. -/
theorem rename_forIn (s : Surroundings) {i : Node} (h : ∀ d, i ≠ .var [d]) (o b : Node) :
    rename s (.forIn i o b) = do
      return .forIn (← rename s i) (← rename s o) (← rename s b) := by
  cases i with
  | var ds =>
    match ds with
    | [d] => exact absurd rfl (h d)
    | [] | _ :: _ :: _ => rfl
  | _ => rfl

/-! ## §4. Copies. -/

section

variable {C : Copying}

mutual

/-- A copy of a node is what the rules make it. -/
theorem rename_sound (h : C.Sound) (around : List (List String)) (n : Node)
    (hn : C.source around n) :
    Maintains C.invariant (C.copy around n) (rename (.of around) n) := by
  have hparts := h.part hn
  cases n with
  | name x =>
    rw [rename]
    unfold renameName
    split
    · next hx => exact .pure (h.hidden (List.contains_iff_mem.mp hx) hn)
    · next hx =>
      have hopen : x ∉ around.flatten := fun hmem => hx (List.contains_iff_mem.mpr hmem)
      exact .bind .get fun σ hσ => .pure (h.resolved hσ hopen hn)
  | absent | num _ | string _ | atom _ | regexp _ _ | breakTo _ | continueTo _ | debugger =>
    rw [rename]
    exact .pure (h.kept ⟨nofun, nofun, nofun, nofun⟩ hn ⟨rfl, rfl, .nil⟩)
  | array ns | seq ns | block ns | splice ns | toplevel ns | defun _ _ ns =>
    rw [rename]
    exact .bind (renameAll_sound h around ns ((forall_list rfl).mp hparts)) fun _ hns =>
      .pure (h.kept ⟨nofun, nofun, nofun, nofun⟩ hn ⟨rfl, rfl, labelled_list _ hns⟩)
  | function f ps b =>
    rw [rename, Surroundings.enter_of]
    exact .bind (renameAll_sound h _ b ((forall_list rfl).mp hparts)) fun _ hb =>
      .pure (h.kept ⟨nofun, nofun, nofun, nofun⟩ hn ⟨rfl, rfl, labelled_list _ hb⟩)
  | object ps | const ps =>
    rw [rename]
    exact .bind (renameFields_sound h around ps ((forall_fields rfl).mp hparts)) fun _ hps =>
      .pure (h.kept ⟨nofun, nofun, nofun, nofun⟩ hn
        ⟨rfl, labels_eq _ hps, labelled_fields _ hps⟩)
  | call c as | new c as =>
    obtain ⟨hc, has⟩ := (forall_applied rfl).mp hparts
    rw [rename]
    exact .bind (rename_sound h around c hc) fun _ hc =>
      .bind (renameAll_sound h around as has) fun _ has =>
      .pure (h.kept ⟨nofun, nofun, nofun, nofun⟩ hn
        ⟨rfl, rfl, .cons ⟨rfl, hc⟩ (labelled_list _ has)⟩)
  | dot a _ | stat a | label _ a | ret a | throw a =>
    have ha := (forall_one rfl).mp hparts
    rw [rename]
    exact .bind (rename_sound h around a ha) fun _ ha =>
      .pure (h.kept ⟨nofun, nofun, nofun, nofun⟩ hn ⟨rfl, rfl, .cons ⟨rfl, ha⟩ .nil⟩)
  | unary side _ a =>
    have ha := (forall_one rfl).mp hparts
    rw [rename]
    exact .bind (rename_sound h around a ha) fun _ ha =>
      .pure (h.kept ⟨nofun, nofun, nofun, nofun⟩ hn
        ⟨by cases side <;> rfl, rfl, .cons ⟨rfl, ha⟩ .nil⟩)
  | binary _ a b | assign _ a b | sub a b | whileLoop a b | withObject a b =>
    obtain ⟨ha, hb⟩ := (forall_two rfl).mp hparts
    rw [rename]
    exact .bind (rename_sound h around a ha) fun _ ha =>
      .bind (rename_sound h around b hb) fun _ hb =>
      .pure (h.kept ⟨nofun, nofun, nofun, nofun⟩ hn
        ⟨rfl, rfl, .cons ⟨rfl, ha⟩ (.cons ⟨rfl, hb⟩ .nil)⟩)
  | doLoop c b =>
    obtain ⟨hb, hc⟩ := (forall_two rfl).mp hparts
    rw [rename]
    exact .bind (rename_sound h around c hc) fun _ hc =>
      .bind (rename_sound h around b hb) fun _ hb =>
      .pure (h.kept ⟨nofun, nofun, nofun, nofun⟩ hn
        ⟨rfl, rfl, .cons ⟨rfl, hb⟩ (.cons ⟨rfl, hc⟩ .nil)⟩)
  | conditional a b c | ifElse a b c =>
    obtain ⟨ha, hb, hc⟩ := (forall_three rfl).mp hparts
    rw [rename]
    exact .bind (rename_sound h around a ha) fun _ ha =>
      .bind (rename_sound h around b hb) fun _ hb =>
      .bind (rename_sound h around c hc) fun _ hc =>
      .pure (h.kept ⟨nofun, nofun, nofun, nofun⟩ hn
        ⟨rfl, rfl, .cons ⟨rfl, ha⟩ (.cons ⟨rfl, hb⟩ (.cons ⟨rfl, hc⟩ .nil))⟩)
  | var ds =>
    have hds := (forall_fields rfl).mp hparts
    rw [rename]
    split
    · next hin =>
      have hnot : around ≠ [] := (inFunction_of around).mp hin
      exact .bind (renameFields_sound h around ds hds) fun _ hds =>
        .pure (h.kept ⟨nofun, fun h => absurd h hnot, nofun, nofun⟩ hn
          ⟨rfl, labels_eq _ hds, labelled_fields _ hds⟩)
    · next hin =>
      obtain rfl : around = [] := by simpa [inFunction_of] using hin
      exact .bind (localize_sound h ds hds fun x hx _ => h.declare hn x hx) fun _ hes =>
        .pure (h.bindings hn hes)
  | forLoop i c st b =>
    obtain ⟨hi, hc, hst, hb⟩ := (forall_four rfl).mp hparts
    -- what follows the head is the same, whatever became of it
    have hrest : ∀ {P : Node → Prop} (i' : Node), (∀ c' st' b', C.copy around c c' →
        C.copy around st st' → C.copy around b b' → P (.forLoop i' c' st' b')) →
        Maintains C.invariant P (do
          return Node.forLoop i' (← rename (.of around) c) (← rename (.of around) st)
            (← rename (.of around) b)) := fun i' hP =>
      .bind (rename_sound h around c hc) fun _ hc =>
      .bind (rename_sound h around st hst) fun _ hst =>
      .bind (rename_sound h around b hb) fun _ hb => .pure (hP _ _ _ hc hst hb)
    have hwhole : ByParts around (.forLoop i c st b) → ∀ i', C.copy around i i' → ∀ c' st' b',
        C.copy around c c' → C.copy around st st' → C.copy around b b' →
        C.copy around (.forLoop i c st b) (.forLoop i' c' st' b') :=
      fun hparts i' hi c' st' b' hc hst hb => h.kept hparts hn ⟨rfl, rfl,
        .cons ⟨rfl, hi⟩ (.cons ⟨rfl, hc⟩ (.cons ⟨rfl, hst⟩ (.cons ⟨rfl, hb⟩ .nil)))⟩
    cases i with
    | var ds =>
      have hds := (forall_fields rfl).mp (h.part hi)
      rw [rename]
      split
      · next hin =>
        have hnot : around ≠ [] := (inFunction_of around).mp hin
        refine .bind (.map (renameFields_sound h around ds hds) fun ds' hds => ?_) fun i' hi =>
          hrest i' (hwhole ⟨nofun, nofun, fun h => absurd h hnot, nofun⟩ i' hi)
        exact h.kept ⟨nofun, fun h => absurd h hnot, nofun, nofun⟩ hi
          ⟨rfl, labels_eq _ hds, labelled_fields _ hds⟩
      · next hin =>
        obtain rfl : around = [] := by simpa [inFunction_of] using hin
        refine .bind (.map (Q := fun i' => ∃ es, i' = assignments es ∧
          List.Forall₂ C.Assigned ds es) (localize_sound h ds hds fun x hx _ => h.declare hi x hx)
          fun es hes => ⟨es, rfl, hes⟩) ?_
        rintro _ ⟨es, rfl, hes⟩
        exact hrest _ fun c' st' b' hc hst hb => h.header hn hes hc hst hb
    | _ =>
      rw [rename_forLoop]
      · exact .bind (rename_sound h around _ hi) fun i' hi =>
          hrest i' (hwhole (byParts_forLoop nofun) i' hi)
      · nofun
  | forIn i o b =>
    obtain ⟨hi, ho, hb⟩ := (forall_three rfl).mp hparts
    have hrest : ∀ {P : Node → Prop} (i' : Node), (∀ o' b', C.copy around o o' →
        C.copy around b b' → P (.forIn i' o' b')) →
        Maintains C.invariant P (do
          return Node.forIn i' (← rename (.of around) o) (← rename (.of around) b)) :=
      fun i' hP =>
      .bind (rename_sound h around o ho) fun _ ho =>
      .bind (rename_sound h around b hb) fun _ hb => .pure (hP _ _ ho hb)
    have hwhole : ByParts around (.forIn i o b) → ∀ i', C.copy around i i' → ∀ o' b',
        C.copy around o o' → C.copy around b b' →
        C.copy around (.forIn i o b) (.forIn i' o' b') :=
      fun hparts i' hi o' b' ho hb => h.kept hparts hn ⟨rfl, rfl,
        .cons ⟨rfl, hi⟩ (.cons ⟨rfl, ho⟩ (.cons ⟨rfl, hb⟩ .nil))⟩
    cases i with
    | var ds =>
      match ds with
      | [(x, v)] =>
        have hv := (forall_one (a := v) rfl).mp (h.part hi)
        rw [rename]
        split
        · next hin =>
          have hnot : around ≠ [] := (inFunction_of around).mp hin
          refine .bind (.map (rename_sound h around v hv) fun v' hv => ?_) fun i' hi =>
            hrest i' (hwhole ⟨nofun, nofun, nofun, fun h => absurd h hnot⟩ i' hi)
          exact h.kept ⟨nofun, fun h => absurd h hnot, nofun, nofun⟩ hi
            ⟨rfl, rfl, .cons ⟨rfl, hv⟩ .nil⟩
        · next hin =>
          obtain rfl : around = [] := by simpa [inFunction_of] using hin
          refine .bind (.map (Q := fun i' => ∃ σ, i' = Scope.field σ x ∧ C.invariant σ) .get
            fun σ hσ => ⟨σ, rfl, hσ⟩) ?_
          rintro _ ⟨σ, rfl, hσ⟩
          exact hrest _ fun o' b' ho hb => h.iterator hσ hn ho hb
      | [] | _ :: _ :: _ =>
        rw [rename_forIn]
        · exact .bind (rename_sound h around _ hi) fun i' hi =>
            hrest i' (hwhole (byParts_forIn nofun) i' hi)
        · nofun
    | _ =>
      rw [rename_forIn]
      · exact .bind (rename_sound h around _ hi) fun i' hi =>
          hrest i' (hwhole (byParts_forIn nofun) i' hi)
      · nofun
  | tryCatch b hd f =>
    obtain ⟨hb, hhd, hf⟩ := forall_tryCatch.mp hparts
    rw [rename]
    exact .bind (renameAll_sound h around b hb) fun _ hb =>
      .bind (renameFinalizer_sound h around f hf) fun _ hf =>
      .bind (renameHandler_sound h around hd hhd) fun _ hhd =>
      .pure (h.kept ⟨nofun, nofun, nofun, nofun⟩ hn (replaced_tryCatch hb hhd hf))
  | switch d cs =>
    obtain ⟨hd, hcs⟩ := forall_switch.mp hparts
    rw [rename]
    exact .bind (renameCases_sound h around cs hcs) fun cs' hcs =>
      .bind (rename_sound h around d hd) fun d' hd =>
      .pure (h.kept ⟨nofun, nofun, nofun, nofun⟩ hn ⟨rfl, rfl, .cons ⟨rfl, hd⟩
        (List.rel_flatMap hcs fun _ _ h => .cons ⟨rfl, h.1⟩ (labelled_list _ h.2))⟩)
termination_by structural n

theorem renameAll_sound (h : C.Sound) (around : List (List String)) (ns : List Node)
    (hns : ∀ n ∈ ns, C.source around n) :
    Maintains C.invariant (List.Forall₂ (C.copy around) ns) (renameAll (.of around) ns) := by
  cases ns with
  | nil =>
    rw [renameAll]
    exact .pure .nil
  | cons n ns =>
    obtain ⟨hn, hns⟩ := List.forall_mem_cons.mp hns
    rw [renameAll]
    exact .bind (rename_sound h around n hn) fun _ hn =>
      .bind (renameAll_sound h around ns hns) fun _ hns => .pure (.cons hn hns)
termination_by structural ns

theorem renameFields_sound (h : C.Sound) (around : List (List String))
    (ps : List (String × Node)) (hps : ∀ p ∈ ps, C.source around p.2) :
    Maintains C.invariant (List.Forall₂ (Labelled (C.copy around)) ps)
      (renameFields (.of around) ps) := by
  cases ps with
  | nil =>
    rw [renameFields]
    exact .pure .nil
  | cons p ps =>
    obtain ⟨k, n⟩ := p
    obtain ⟨hn, hps⟩ := List.forall_mem_cons.mp hps
    rw [renameFields]
    exact .bind (rename_sound h around n hn) fun _ hn =>
      .bind (renameFields_sound h around ps hps) fun _ hps => .pure (.cons ⟨rfl, hn⟩ hps)
termination_by structural ps

/-- Outside function literals bindings become assignments. -/
theorem localize_sound (h : C.Sound) (ds : List (String × Node)) (hds : ∀ d ∈ ds, C.source [] d.2)
    (hdeclare : ∀ x ∈ ds.map (·.1), ∀ σ, C.invariant σ → C.invariant (σ.declare x)) :
    Maintains C.invariant (List.Forall₂ C.Assigned ds) (localize (.of []) ds) := by
  cases ds with
  | nil =>
    rw [localize]
    exact .pure .nil
  | cons d ds =>
    obtain ⟨x, i⟩ := d
    obtain ⟨hi, hds⟩ := List.forall_mem_cons.mp hds
    obtain ⟨hx, hdeclare⟩ := List.forall_mem_cons.mp hdeclare
    -- the assignment is made behind its value, in whatever scope that left
    have hrest : ∀ value, (∀ σ, C.invariant σ →
        C.Assigned (x, i) (.assign "" (σ.field x) value)) →
        Maintains C.invariant (List.Forall₂ C.Assigned ((x, i) :: ds)) (do
          let here := Node.assign "" ((← MonadState.get).field x) value
          return here :: (← localize (.of []) ds)) := fun _ hvalue =>
      .bind .get fun σ hσ => .bind (localize_sound h ds hds hdeclare) fun _ hes =>
      .pure (.cons (hvalue σ hσ) hes)
    rw [localize]
    refine .bind (.update hx) fun _ _ => ?_
    split
    · next ha =>
      exact .bind (.pure (P := (· = .null)) rfl) fun _ hv =>
        hrest _ fun σ hσ => hv ▸ .bare hσ ha
    · next ha =>
      exact .bind (rename_sound h [] i hi) fun _ hv =>
        hrest _ fun σ hσ => .bound hσ (Bool.eq_false_iff.mpr ha) hv
termination_by structural ds

theorem renameHandler_sound (h : C.Sound) (around : List (List String))
    (hd : Option (String × List Node)) (hhd : ∀ c ∈ hd, ∀ n ∈ c.2, C.source around n) :
    Maintains C.invariant
      (Option.Rel (fun c c' => c'.1 = c.1 ∧ List.Forall₂ (C.copy around) c.2 c'.2) hd)
      (renameHandler (.of around) hd) := by
  cases hd with
  | none =>
    rw [renameHandler]
    exact .pure .none
  | some c =>
    obtain ⟨x, b⟩ := c
    rw [renameHandler]
    exact .bind (renameAll_sound h around b (hhd _ rfl)) fun _ hb => .pure (.some ⟨rfl, hb⟩)
termination_by structural hd

theorem renameFinalizer_sound (h : C.Sound) (around : List (List String)) (f : Option (List Node))
    (hf : ∀ b ∈ f, ∀ n ∈ b, C.source around n) :
    Maintains C.invariant (Option.Rel (List.Forall₂ (C.copy around)) f)
      (renameFinalizer (.of around) f) := by
  cases f with
  | none =>
    rw [renameFinalizer]
    exact .pure .none
  | some b =>
    rw [renameFinalizer]
    exact .bind (renameAll_sound h around b (hf _ rfl)) fun _ hb => .pure (.some hb)
termination_by structural f

theorem renameCases_sound (h : C.Sound) (around : List (List String))
    (cs : List (Node × List Node))
    (hcs : ∀ c ∈ cs, C.source around c.1 ∧ ∀ n ∈ c.2, C.source around n) :
    Maintains C.invariant
      (List.Forall₂ (fun c c' => C.copy around c.1 c'.1 ∧
        List.Forall₂ (C.copy around) c.2 c'.2) cs)
      (renameCases (.of around) cs) := by
  cases cs with
  | nil =>
    rw [renameCases]
    exact .pure .nil
  | cons c cs =>
    obtain ⟨t, b⟩ := c
    obtain ⟨⟨ht, hb⟩, hcs⟩ := List.forall_mem_cons.mp hcs
    rw [renameCases]
    exact .bind (rename_sound h around t ht) fun _ ht =>
      .bind (renameAll_sound h around b hb) fun _ hb =>
      .bind (renameCases_sound h around cs hcs) fun _ hcs => .pure (.cons ⟨ht, hb⟩ hcs)
termination_by structural cs

end

end

end Program

end Resumable
