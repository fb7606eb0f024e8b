/-
  Resumable.Proofs.Scope.Copying — what copying does to the names of a construct.

  A `Setting` fixes which names were declared in the beginning and which may be declared on the way.
  While a construct is copied, the scope stays near the beginning (`Near`), and every use of a name
  in the copy can be accounted for: a bare name is not declared or is hidden by a function literal,
  a field of the container is declared and not hidden, and `var` bindings are left in function
  literals only (`Accounted`).  A temp is a name of neither kind; if the container is called like
  one, what looks like a field of the container may be a member that the source accesses.

  Neither depends on how far the copying has come, so the rules that `rename` follows are sound for
  both together (`copying_sound`).
-/
import Resumable.Proofs.Scope.References
import Resumable.Proofs.Walk.Growth

namespace Resumable.Program

/-! ## §1. Settings. -/

/-- What is known about names before a walk. -/
structure Setting where
  container : String
  /-- What the number of a temp is appended to. -/
  stem : String
  /-- How many temps are made. -/
  temps : Nat
  /-- The members that the source accesses. -/
  accessed : String → Prop
  /-- The names declared in the beginning. -/
  base : List String
  /-- The names that may be declared on the way. -/
  fresh : String → Prop

namespace Setting

variable (S : Setting)

/-- Whether a name is that of a temp. -/
def IsTemp (x : String) : Prop := ∃ k < S.temps, x = S.stem ++ toString k

/-- A use of a name in a source that does not mention the container. -/
def Source (r : Reference) : Prop :=
  match r.use with
  | .bare => r.name ≠ S.container
  | .redirected => False
  | .member => S.accessed r.name
  | .binding => r.around = [] → S.fresh r.name

/-- A use of a name in a result. -/
def Accounted (r : Reference) : Prop :=
  match r.use with
  | .bare => S.IsTemp r.name ∨ r.name ≠ S.container ∧ (r.Hidden ∨ r.name ∉ S.base)
  | .redirected =>
      (S.IsTemp S.container ∧ S.accessed r.name) ∨
        (r.name ∈ S.base ∨ S.fresh r.name) ∧ ¬ r.Hidden
  | .member => True
  | .binding => r.around ≠ []

/-- A source that openly uses no names but some: outside the function literals that bind them, it
    neither refers to others nor binds them. -/
def SourceOf (R : String → Prop) (r : Reference) : Prop :=
  match r.use with
  | .bare => r.name ≠ S.container ∧ (r.Hidden ∨ R r.name)
  | .redirected => False
  | .member => S.accessed r.name
  | .binding => r.around = [] → S.fresh r.name ∧ R r.name

/-- A use of a name in a result of such a source. -/
def AccountedOf (R : String → Prop) (r : Reference) : Prop :=
  match r.use with
  | .bare => S.IsTemp r.name ∨ r.name ≠ S.container ∧ (r.Hidden ∨ r.name ∉ S.base)
  | .redirected =>
      (S.IsTemp S.container ∧ S.accessed r.name) ∨
        (r.name ∈ S.base ∨ S.fresh r.name) ∧ ¬ r.Hidden ∧ R r.name
  | .member => True
  | .binding => r.around ≠ []

/-- A scope that a walk may reach. -/
structure Near (σ : Scope) : Prop where
  container : σ.container = S.container
  stem : σ.stem = S.stem
  names : S.base <+: σ.names
  known : ∀ x ∈ σ.names, x ∈ S.base ∨ S.fresh x
  nodup : σ.names.Nodup

variable {S} {R : String → Prop} {σ : Scope} {x : String}

theorem sourceOf_all {r : Reference} : S.SourceOf (fun _ => True) r ↔ S.Source r := by
  obtain ⟨x, use, around⟩ := r
  cases use <;> simp [SourceOf, Source]

theorem accountedOf_all {r : Reference} : S.AccountedOf (fun _ => True) r ↔ S.Accounted r := by
  obtain ⟨x, use, around⟩ := r
  cases use <;> simp [AccountedOf, Accounted]

theorem nodup_declare (h : σ.names.Nodup) (x : String) : (σ.declare x).names.Nodup := by
  unfold Scope.declare
  split
  · exact h
  · next hnew =>
    have hmem : x ∉ σ.names := by simpa [Scope.declared] using hnew
    refine List.nodup_append.mpr ⟨h, by simp, fun a ha b hb hab => ?_⟩
    rw [List.mem_singleton.mp hb] at hab
    exact hmem (hab ▸ ha)

theorem nodup_declareAll (h : σ.names.Nodup) (xs : List String) :
    (σ.declareAll xs).names.Nodup := by
  unfold Scope.declareAll
  induction xs generalizing σ with
  | nil => exact h
  | cons x xs ih => exact ih (nodup_declare h x)

theorem Near.declare (h : S.Near σ) (hx : S.fresh x) : S.Near (σ.declare x) := by
  have hgrows := (Scope.declares_declare σ x).toGrows
  refine ⟨hgrows.container.trans h.container, hgrows.stem.trans h.stem, h.names.trans hgrows.names,
    fun y hy => ?_, nodup_declare h.nodup x⟩
  rcases Scope.mem_declare.mp hy with hy | rfl
  · exact h.known y hy
  · exact .inr hx

theorem Near.nextTemp (h : S.Near σ) : S.Near σ.nextTemp.2 :=
  ⟨h.container, h.stem, h.names, h.known, h.nodup⟩

/-- A temp that is made. -/
theorem Near.isTemp (h : S.Near σ) {k : Nat} (hk : k < S.temps) : S.IsTemp (σ.temp k) :=
  ⟨k, hk, by rw [Scope.temp, h.stem]⟩

/-- Where nothing new may be declared, nothing is. -/
theorem Near.names_eq (h : S.Near σ) (hfresh : ∀ x, S.fresh x → x ∈ S.base) :
    σ.names = S.base := by
  obtain ⟨new, hnew⟩ := h.names
  have hnodup := h.nodup
  rw [← hnew, List.nodup_append] at hnodup
  cases new with
  | nil => rw [← hnew, List.append_nil]
  | cons x new =>
    have hx : x ∈ σ.names := by simp [← hnew]
    have hbase : x ∈ S.base := (h.known x hx).elim id (hfresh x)
    exact absurd rfl (hnodup.2.2 x hbase x List.mem_cons_self)

/-- The field of a name that is known. -/
theorem Near.field_accounted (h : S.Near σ) {around : List (List String)}
    (hx : x ∈ S.base ∨ S.fresh x) (hh : x ∉ around.flatten) (hR : R x) :
    ∀ r ∈ (σ.field x).references S.container around, S.AccountedOf R r := by
  unfold Scope.field
  rw [h.container, Node.references, if_pos (by simp [Node.isNamed]), List.forall_mem_singleton]
  exact .inr ⟨hx, hh, hR⟩

/-- The field of a name that a `var` outside function literals binds. -/
theorem Near.outer_field (h : S.Near σ) (hx : S.fresh x ∧ R x) :
    ∀ r ∈ (σ.field x).references S.container [], S.AccountedOf R r :=
  h.field_accounted (.inr hx.1) (by simp) hx.2

/-- What a name becomes. -/
theorem Near.resolve_accounted (h : S.Near σ) {around : List (List String)}
    (hx : S.SourceOf R ⟨x, .bare, around⟩) (hh : x ∉ around.flatten) :
    ∀ r ∈ (σ.resolve x).references S.container around, S.AccountedOf R r := by
  unfold Scope.resolve
  split
  · next hd =>
    have hknown := h.known x (by simpa [Scope.declared] using hd)
    exact h.field_accounted hknown hh (hx.2.resolve_left hh)
  · next hd =>
    have hbase : x ∉ S.base := fun hb => hd (by simpa [Scope.declared] using h.names.subset hb)
    rw [Node.references, List.forall_mem_singleton]
    exact .inr ⟨hx.1, .inr hbase⟩

/-- A member access reads from the container only if its base does, or if the container is called
    like a temp. -/
theorem dot_accounted {b : Node} {f : String} {around : List (List String)} (hf : S.accessed f)
    (h : ∀ r ∈ b.references S.container around, S.AccountedOf R r) :
    ∀ r ∈ (Node.dot b f).references S.container around, S.AccountedOf R r := by
  cases hb : b.isNamed S.container with
  | false =>
    rw [Node.references_dot hb, List.forall_mem_cons]
    exact ⟨trivial, h⟩
  | true =>
    rw [Node.eq_name_of_isNamed hb, Node.references, List.forall_mem_singleton] at h
    rw [Node.references, if_pos hb, List.forall_mem_singleton]
    exact .inl ⟨h.resolve_right fun hn => hn.1 rfl, hf⟩

/-- A member that the source accesses. -/
theorem accessed_of_source {b : Node} {f : String} {around : List (List String)}
    (h : ∀ r ∈ (Node.dot b f).references S.container around, S.SourceOf R r) : S.accessed f := by
  rw [Node.references] at h
  split at h
  · exact (List.forall_mem_singleton.mp h).elim
  · exact (List.forall_mem_cons.mp h).1

end Setting

/-! ## §2. Copies. -/

/-- A copy of a node: its uses of names are accounted for, and inside a function literal it declares
    the same names. -/
structure Copied (S : Setting) (R : String → Prop) (around : List (List String)) (n n' : Node) :
    Prop where
  vars : around ≠ [] → n'.vars = n.vars
  references : ∀ r ∈ n'.references S.container around, S.AccountedOf R r

namespace Setting

variable {S : Setting} {R : String → Prop} {around : List (List String)}

/-- What copying does to the names of a source. -/
def copying (S : Setting) (R : String → Prop) : Copying where
  invariant := S.Near
  source around n := ∀ r ∈ n.references S.container around, S.SourceOf R r
  copy := Copied S R

/-- Assignments as one expression. -/
theorem references_assignments {c : String} (es : List Node) :
    (assignments es).references c around = Node.referencesAll c around es := by
  match es with
  | [e] => simp [assignments, Node.referencesAll]
  | [] | _ :: _ :: _ => simp [assignments, Node.references]

/-- A source does not read from the container. -/
theorem readsField_of_source {n : Node} (h : (S.copying R).source around n) :
    n.readsField S.container = false := by
  cases n with
  | dot b f =>
    cases hb : b.isNamed S.container with
    | false => exact hb
    | true =>
      have hred : ⟨f, .redirected, around⟩ ∈ (Node.dot b f).references S.container around := by
        rw [Node.references, if_pos hb]
        exact List.mem_cons_self
      exact (h _ hred).elim
  | _ => rfl

/-- What bindings outside function literals become is accounted for. -/
theorem assigned_accounted {ds : List (String × Node)} {es : List Node}
    (h : List.Forall₂ (S.copying R).Assigned ds es)
    (hds : (S.copying R).source [] (.var ds)) :
    ∀ r ∈ (assignments es).references S.container [], S.AccountedOf R r := by
  rw [references_assignments]
  have hnames : ∀ d ∈ ds, S.fresh d.1 ∧ R d.1 := fun d hd =>
    hds ⟨d.1, .binding, []⟩ (Node.mem_references.mpr (.inl (List.mem_map_of_mem hd))) rfl
  clear hds
  induction h with
  | nil => simp [Node.referencesAll]
  | @cons d e ds es h _ ih =>
    obtain ⟨hd, hds⟩ := List.forall_mem_cons.mp hnames
    rw [Node.referencesAll, List.forall_mem_append]
    refine ⟨?_, ih hds⟩
    cases h with
    | bare hσ =>
      rw [Node.references, List.forall_mem_append]
      exact ⟨Near.outer_field hσ hd, by simp [Node.null, Node.references]⟩
    | bound hσ _ hv =>
      rw [Node.references, List.forall_mem_append]
      exact ⟨Near.outer_field hσ hd, hv.references⟩

/-- What a node that is copied part by part uses is accounted for if the uses of its parts are. -/
theorem replaced_accounted {n m : Node} (hparts : ByParts around n)
    (hn : (S.copying R).source around n)
    (h : n.Replaced (Copied S R (n.within around)) m) :
    ∀ r ∈ m.references S.container around, S.AccountedOf R r := by
  have hwithin : m.within around = n.within around :=
    h.within around fun hkind a b hab => hab.vars (by
      obtain ⟨f, ps, b, rfl⟩ := Node.builtAs hkind
      simp [Node.within])
  have hpart : ∀ q ∈ m.positions, ∀ r ∈ q.2.references S.container (m.within around),
      S.AccountedOf R r := by
    intro q hq
    obtain ⟨p, -, -, hcopied⟩ := h.origin hq
    rw [hwithin]
    exact hcopied.references
  intro r hr
  rcases Node.mem_references.mp hr with hown | ⟨-, q, hq, hr⟩
  · cases m with
    | name x =>
      obtain ⟨x', rfl⟩ := Node.builtAs (k := some .name) h.kind.symm
      exact absurd rfl (hparts.reference x')
    | var ds =>
      obtain ⟨ds', rfl⟩ := Node.builtAs (k := some .var) h.kind.symm
      obtain ⟨d, -, rfl⟩ := List.mem_map.mp hown
      exact fun hout => hparts.bindings hout ds' rfl
    | dot b f =>
      obtain ⟨b', f', rfl⟩ := Node.builtAs (k := some .dot) h.kind.symm
      obtain rfl : f = f' := by simpa [Node.scalars] using h.scalars
      exact dot_accounted (accessed_of_source hn) (hpart (.operand, b) List.mem_cons_self) r hr
    | _ => cases hown
  · exact hpart q hq r hr

theorem copying_sound (S : Setting) (R : String → Prop) : (S.copying R).Sound where
  part {around n} hn p hp r hr :=
    hn r (Node.mem_references.mpr (.inr ⟨readsField_of_source hn, p, hp, hr⟩))
  declare {σ ds} hn x hx hσ := by
    obtain ⟨d, hd, rfl⟩ := List.mem_map.mp hx
    have hfresh := hn ⟨d.1, .binding, []⟩
      (Node.mem_references.mpr (.inl (List.mem_map_of_mem hd))) rfl
    exact Near.declare hσ hfresh.1
  hidden {around x} hx hn := by
    refine ⟨fun _ => rfl, ?_⟩
    have hbare := hn ⟨x, .bare, around⟩ (Node.mem_references.mpr (.inl List.mem_cons_self))
    rw [Node.references, List.forall_mem_singleton]
    exact .inr ⟨hbare.1, .inl hx⟩
  resolved {around σ x} hσ hx hn := by
    have hbare := hn ⟨x, .bare, around⟩ (Node.mem_references.mpr (.inl List.mem_cons_self))
    refine ⟨fun _ => ?_, Near.resolve_accounted hσ hbare hx⟩
    unfold Scope.resolve Scope.field
    split <;> simp [Node.vars]
  kept {around n m} hparts hn hm := by
    refine ⟨fun ha => hm.vars fun a b hab => hab.vars ?_, replaced_accounted hparts hn hm⟩
    cases n with
    | function f ps b => simp [Node.within]
    | _ => exact ha
  bindings hn hes := by
    refine ⟨fun h => absurd rfl h, ?_⟩
    rw [Node.references]
    exact assigned_accounted hes hn
  header {ds es c c' st st' b b'} hn hes hc hst hb := by
    have hds : (S.copying R).source [] (.var ds) := fun r hr => hn r (by
      rw [Node.references]
      exact List.mem_append_left _ (List.mem_append_left _ (List.mem_append_left _ hr)))
    refine ⟨fun h => absurd rfl h, ?_⟩
    rw [Node.references, List.forall_mem_append, List.forall_mem_append, List.forall_mem_append]
    exact ⟨⟨⟨assigned_accounted hes hds, hc.references⟩, hst.references⟩, hb.references⟩
  iterator {σ x i o o' b b'} hσ hn ho hb := by
    have hx := hn ⟨x, .binding, []⟩ (by simp [Node.references, Node.referencesBindings]) rfl
    refine ⟨fun h => absurd rfl h, ?_⟩
    rw [Node.references, List.forall_mem_append, List.forall_mem_append]
    exact ⟨⟨Near.outer_field hσ hx, ho.references⟩, hb.references⟩

end Setting

end Resumable.Program
