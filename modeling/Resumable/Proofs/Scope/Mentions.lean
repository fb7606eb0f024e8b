/-
  Resumable.Proofs.Scope.Mentions — the names that a copy mentions.

  Copying redirects references to the container, so a copy mentions no names but those of the
  construct and the container (`copy_names`); and the scope it leaves has no new names if the `var`
  bindings outside function literals are those of declared names (`copyScope_eq`).

  An `Upkeep` says which names may be mentioned, which may be declared, and what holds of every
  scope on the way; both facts are cases of one (`Upkeep.copying_sound`).
-/
import Resumable.Proofs.Scope.Copying
import Resumable.Proofs.Tree.Traversal

namespace Resumable.Program

open Node (NamesAllIn namesIn_name namesIn_children namesIn_leaf namesAllIn_nil namesAllIn_cons
  forall_one forall_two forall_three forall_four)

/-- A node that is no reference mentions what its parts mention. -/
theorem namesIn_parts {A : String → Prop} {n : Node} (hn : n.name? = none) :
    n.NamesIn A ↔ ∀ p ∈ n.positions, p.2.NamesIn A := by
  rw [namesIn_children hn n.children_eq, NamesAllIn, List.forall_mem_map]

namespace Scope

variable {A : String → Prop} {σ : Scope}

theorem namesIn_field (hσ : A σ.container) (x : String) : (σ.field x).NamesIn A := by
  unfold field
  rw [namesIn_children rfl (l := [.name σ.container]) rfl, namesAllIn_cons, namesIn_name]
  exact ⟨hσ, namesAllIn_nil⟩

theorem namesIn_resolve (hσ : A σ.container) {x : String} (hx : A x) :
    (σ.resolve x).NamesIn A := by
  unfold resolve
  split
  · exact namesIn_field hσ x
  · exact namesIn_name.mpr hx

end Scope

/-! ## §1. Upkeeps. -/

/-- What is kept up while a construct is copied. -/
structure Upkeep where
  /-- The names that may be mentioned. -/
  allowed : String → Prop
  /-- The names that may be declared. -/
  declarable : String → Prop
  /-- What holds of the scope. -/
  invariant : Scope → Prop
  container {σ : Scope} (h : invariant σ) : allowed σ.container
  declare {σ : Scope} {x : String} (hx : declarable x) (h : invariant σ) : invariant (σ.declare x)

namespace Upkeep

variable (U : Upkeep)

/-- The names that `var` statements outside function literals bind may be declared. -/
def Binds (rs : List Reference) : Prop := ∀ r ∈ rs, r.isOuter = true → U.declarable r.name

/-- Copies of nodes that mention and bind such names. -/
def copying (c : String) : Copying where
  invariant := U.invariant
  source around n := n.NamesIn U.allowed ∧ U.Binds (n.references c around)
  copy _ _ m := m.NamesIn U.allowed

variable {U} {c : String}

/-- A part of a node binds what the node binds. -/
theorem Binds.part {around : List (List String)} {n : Node} (h : U.Binds (n.references c around))
    {p : Position × Node} (hp : p ∈ n.positions) :
    U.Binds (p.2.references c (n.within around)) := by
  intro r hr houter
  cases hreads : n.readsField c with
  | false => exact h r (Node.mem_references.mpr (.inr ⟨hreads, p, hp, hr⟩)) houter
  | true =>
    -- what is read from the container is a name, which binds nothing
    cases n with
    | dot b f =>
      cases b with
      | name y =>
        obtain rfl := List.mem_singleton.mp hp
        rw [Node.references, List.mem_singleton] at hr
        subst hr
        cases houter
      | _ => cases hreads
    | _ => cases hreads

theorem namesIn_assignments {es : List Node} (h : NamesAllIn U.allowed es) :
    (assignments es).NamesIn U.allowed := by
  match es with
  | [e] => exact h e List.mem_cons_self
  | [] | _ :: _ :: _ => exact (namesIn_children rfl rfl).mpr h

theorem namesIn_assigned {ds : List (String × Node)} {es : List Node}
    (h : List.Forall₂ (U.copying c).Assigned ds es) : NamesAllIn U.allowed es := by
  induction h with
  | nil => exact namesAllIn_nil
  | @cons d e ds es h _ ih =>
    refine namesAllIn_cons.mpr ⟨?_, ih⟩
    cases h with
    | @bare σ x i hσ =>
      rw [namesIn_parts rfl, forall_two rfl]
      exact ⟨Scope.namesIn_field (U.container hσ) x, namesIn_leaf rfl rfl⟩
    | @bound σ x i v hσ _ hv =>
      rw [namesIn_parts rfl, forall_two rfl]
      exact ⟨Scope.namesIn_field (U.container hσ) x, hv⟩

/-- Copying keeps an upkeep whose names those of the node are. -/
theorem copying_sound (U : Upkeep) (c : String) : (U.copying c).Sound where
  part {around n} hn p hp := by
    refine ⟨?_, hn.2.part hp⟩
    cases hname : n.name? with
    | none => exact (namesIn_parts hname).mp hn.1 p hp
    | some x =>
      cases n with
      | name y => cases hp
      | _ => cases hname
  declare {σ ds} hn x hx hσ := by
    obtain ⟨d, hd, rfl⟩ := List.mem_map.mp hx
    exact U.declare (hn.2 ⟨d.1, .binding, []⟩
      (Node.mem_references.mpr (.inl (List.mem_map_of_mem hd))) rfl) hσ
  hidden _ hn := hn.1
  resolved hσ _ hn := Scope.namesIn_resolve (U.container hσ) (namesIn_name.mp hn.1)
  kept {around n m} hparts hn hm := by
    have hname : m.name? = none := by
      cases m with
      | name x =>
        obtain ⟨x', rfl⟩ := Node.builtAs (k := some .name) hm.kind.symm
        exact absurd rfl (hparts.reference x')
      | _ => rfl
    refine (namesIn_parts hname).mpr fun q hq => ?_
    obtain ⟨p, -, -, hcopy⟩ := hm.origin hq
    exact hcopy
  bindings _ hes :=
    (namesIn_parts rfl).mpr ((forall_one rfl).mpr (namesIn_assignments (namesIn_assigned hes)))
  header _ hes hc hst hb :=
    (namesIn_parts rfl).mpr
      ((forall_four rfl).mpr ⟨namesIn_assignments (namesIn_assigned hes), hc, hst, hb⟩)
  iterator hσ _ ho hb :=
    (namesIn_parts rfl).mpr
      ((forall_three rfl).mpr ⟨Scope.namesIn_field (U.container hσ) _, ho, hb⟩)

end Upkeep

/-! ## §2. Copies. -/

namespace Walk

variable {σ : Scope} {n : Node} {A : String → Prop}

/-- A copy mentions no names but those of the construct and the container. -/
theorem copy_names (hn : n.NamesIn A) (hσ : A σ.container) : (copy σ n).NamesIn A := by
  let U : Upkeep :=
    { allowed := A
      declarable := fun _ => True
      invariant := fun σ => A σ.container
      container := id
      declare := fun {σ x} _ h => (Scope.declares_declare σ x).container ▸ h }
  exact (rename_sound (U.copying_sound "") [] n ⟨hn, fun _ _ _ => trivial⟩ σ hσ).2

/-- Copying leaves a scope alone if every `var` outside function literals binds a declared name. -/
theorem copyScope_eq (h : ∀ r ∈ n.references "" [], r.isOuter = true → r.name ∈ σ.names) :
    copyScope σ n = σ := by
  let U : Upkeep :=
    { allowed := fun _ => True
      declarable := (· ∈ σ.names)
      invariant := (· = σ)
      container := fun _ => trivial
      declare := by
        rintro _ x hx rfl
        exact if_pos (List.contains_iff_mem.mpr hx) }
  exact (rename_sound (U.copying_sound "") [] n ⟨fun _ _ => trivial, h⟩ σ rfl).1

end Walk

end Resumable.Program
