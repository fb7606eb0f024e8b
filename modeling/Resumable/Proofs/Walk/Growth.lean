/-
  Resumable.Proofs.Walk.Growth — a scope only grows.

  Copying a construct declares names and does nothing else to a scope; a walk makes temps as well.
  Names are declared once and never forgotten, temps are numbered upwards, and the generated names
  stay what they are.

  Main statement: `Emits.grows`.
-/
import Std.Data.String.ToNat
import Resumable.Proofs.Walk.Copying
import Resumable.Proofs.Walk.Statement

namespace Resumable.Program

namespace Scope

/-! ## §1. Growing. -/

/-- The second scope is the first after some declarations and new temps. -/
structure Grows (σ σ' : Scope) : Prop where
  container : σ'.container = σ.container
  stem : σ'.stem = σ.stem
  names : σ.names <+: σ'.names
  temps : σ.temps ≤ σ'.temps

/-- The second scope is the first after some declarations. -/
structure Declares (σ σ' : Scope) : Prop extends Grows σ σ' where
  sameTemps : σ'.temps = σ.temps

theorem Grows.refl (σ : Scope) : Grows σ σ := ⟨rfl, rfl, List.prefix_refl _, Nat.le_refl _⟩

theorem Grows.trans {σ σ₁ σ₂ : Scope} (h : Grows σ σ₁) (h' : Grows σ₁ σ₂) : Grows σ σ₂ :=
  ⟨h'.container.trans h.container, h'.stem.trans h.stem, h.names.trans h'.names,
    Nat.le_trans h.temps h'.temps⟩

theorem Declares.refl (σ : Scope) : Declares σ σ := ⟨.refl σ, rfl⟩

theorem Declares.trans {σ σ₁ σ₂ : Scope} (h : Declares σ σ₁) (h' : Declares σ₁ σ₂) :
    Declares σ σ₂ :=
  ⟨h.toGrows.trans h'.toGrows, h'.sameTemps.trans h.sameTemps⟩

theorem declares_declare (σ : Scope) (x : String) : Declares σ (σ.declare x) := by
  unfold declare
  split
  · exact .refl σ
  · exact ⟨⟨rfl, rfl, List.prefix_append _ _, Nat.le_refl _⟩, rfl⟩

theorem declares_declareAll (σ : Scope) (xs : List String) : Declares σ (σ.declareAll xs) := by
  unfold declareAll
  induction xs generalizing σ with
  | nil => exact .refl σ
  | cons x xs ih => exact (declares_declare σ x).trans (ih _)

theorem mem_declare {σ : Scope} {x y : String} :
    x ∈ (σ.declare y).names ↔ x ∈ σ.names ∨ x = y := by
  unfold declare declared
  split
  · next h =>
    have hy : y ∈ σ.names := List.contains_iff_mem.mp h
    refine ⟨.inl, fun hx => hx.elim id ?_⟩
    rintro rfl
    exact hy
  · simp

theorem mem_declareAll {σ : Scope} {x : String} {xs : List String} :
    x ∈ (σ.declareAll xs).names ↔ x ∈ σ.names ∨ x ∈ xs := by
  unfold declareAll
  induction xs generalizing σ with
  | nil => simp
  | cons y ys ih => rw [List.foldl_cons, ih, mem_declare, List.mem_cons, or_assoc]

theorem grows_nextTemp (σ : Scope) : Grows σ σ.nextTemp.2 :=
  ⟨rfl, rfl, List.prefix_refl _, Nat.le_succ _⟩

theorem Grows.temp {σ σ' : Scope} (h : Grows σ σ') (k : Nat) : σ'.temp k = σ.temp k := by
  unfold Scope.temp
  rw [h.stem]

/-- Temps with different numbers are different. -/
theorem temp_injective (σ : Scope) {j k : Nat} (h : σ.temp j = σ.temp k) : j = k :=
  Nat.repr_injective ((String.append_right_inj σ.stem).mp h)

/-- The temps made between two scopes, in the order of their numbers. -/
def tempsTo (σ σ' : Scope) : List String :=
  (List.range' σ.temps (σ'.temps - σ.temps)).map σ.temp

theorem Declares.tempsTo {σ σ' : Scope} (h : Declares σ σ') : σ.tempsTo σ' = [] := by
  unfold Scope.tempsTo
  rw [h.sameTemps, Nat.sub_self]
  rfl

theorem Grows.tempsTo_append {σ σ₁ σ₂ : Scope} (h : Grows σ σ₁) (h' : Grows σ₁ σ₂) :
    σ.tempsTo σ₂ = σ.tempsTo σ₁ ++ σ₁.tempsTo σ₂ := by
  have hlo := h.temps
  have hhi := h'.temps
  have htemp : σ₁.temp = σ.temp := funext h.temp
  -- the intervals meet at the scope between the others
  have hcut : σ₂.temps - σ.temps = (σ₁.temps - σ.temps) + (σ₂.temps - σ₁.temps) := by omega
  have hmid : σ.temps + (σ₁.temps - σ.temps) = σ₁.temps := by omega
  unfold tempsTo
  rw [hcut, ← List.range'_append_1, hmid, htemp, List.map_append]

theorem tempsTo_nextTemp (σ : Scope) : σ.tempsTo σ.nextTemp.2 = [σ.nextTemp.1] := by
  have hone : σ.nextTemp.2.temps - σ.temps = 1 := Nat.add_sub_cancel_left _ _
  unfold tempsTo
  rw [hone]
  rfl

end Scope

/-! ## §2. Copying. -/

namespace Walk

/-- Copying keeps of a scope what declaring a name keeps of it. -/
theorem copyScope_maintains {I : Scope → Prop}
    (hdeclare : ∀ σ x, I σ → I (σ.declare x)) {σ : Scope} (hσ : I σ) (n : Node) :
    I (copyScope σ n) := by
  let C : Copying := { invariant := I, source := fun _ _ => True, copy := fun _ _ _ => True }
  have sound : C.Sound :=
    { part := fun _ _ _ => trivial
      declare := fun _ x _ => hdeclare _ x
      hidden := fun _ _ => trivial
      resolved := fun _ _ _ => trivial
      kept := fun _ _ _ => trivial
      bindings := fun _ _ => trivial
      header := fun _ _ _ _ _ => trivial
      iterator := fun _ _ _ _ => trivial }
  exact (rename_sound sound [] n trivial σ hσ).1

/-- Copying a node declares the names of its `var` bindings. -/
theorem declares_copyScope (σ : Scope) (n : Node) : Scope.Declares σ (copyScope σ n) :=
  copyScope_maintains (fun _ x h => h.trans (Scope.declares_declare _ x)) (.refl σ) n

end Walk

/-! ## §3. Walking. -/

namespace Walk

variable {env : Surface} {job : Job} {σ σ' : Scope} {vs : List Node} {split : Bool}
  {code : List Instr}

/-- A walk declares names and makes temps. -/
theorem Emits.grows (h : Emits env job σ vs split code σ') : σ.Grows σ' := by
  induction h with
  | reference | literal | operandsNil | void | stmtsNil | bindingsNil => exact .refl _
  | copied | passed => exact (declares_copyScope _ _).toGrows
  | kept _ _ ih | assigned _ _ ih | effect _ ih | leads _ _ ih | test _ ih | declaration _ ih =>
    exact ih
  | captured _ _ ih | called _ ih => exact ih.trans (Scope.grows_nextTemp _)
  | operandsCons _ _ ih ih' | stmtsCons _ _ ih ih' => exact ih.trans ih'
  | branch _ _ _ ih₁ ih₂ ih₃ => exact (ih₁.trans ih₂).trans ih₃
  | loop _ _ _ _ ih₁ ih₂ ih₃ ih₄ => exact ((ih₁.trans ih₂).trans ih₃).trans ih₄
  | bare _ ih => exact (Scope.declares_declare _ _).toGrows.trans ih
  | bound _ _ ih ih' => exact ((Scope.declares_declare _ _).toGrows.trans ih).trans ih'

end Walk

/-- A walk starts with some names declared and no temps. -/
theorem Naming.declares_scope (naming : Naming) (body : List Node) :
    Scope.Declares { container := naming.container, stem := naming.stem } (naming.scope body) :=
  Scope.declares_declareAll _ _

end Resumable.Program
