/-
  Resumable.Proofs.Support — results and lists.

  A computation ends well or fails.  What it went through is read off its result, step by step.
  Lists whose members are related two by two, and searches in lists, need a few facts besides those
  of the libraries.
-/
import Mathlib.Data.List.Forall2

namespace Resumable

/-! ## §1. Results. -/

section

variable {ε δ α β : Type}

theorem exists_of_isOk {r : Except ε α} (h : r.isOk = true) : ∃ a, r = .ok a := by
  cases r with
  | ok a => exact ⟨a, rfl⟩
  | error e => cases h

theorem exists_of_not_isOk {r : Except ε α} (h : r.isOk = false) : ∃ e, r = .error e := by
  cases r with
  | ok a => cases h
  | error e => exact ⟨e, rfl⟩

/-- Whether something ends well with a value that passes a check. -/
def okAnd (r : Except ε α) (check : α → Bool) : Bool :=
  match r with
  | .ok a => check a
  | .error _ => false

theorem exists_of_okAnd {r : Except ε α} (check : α → Bool) (h : okAnd r check = true) :
    ∃ a, r = .ok a ∧ check a = true := by
  cases r with
  | ok a => exact ⟨a, rfl, h⟩
  | error e => cases h

/-- What a computation with a second step that ends well went through. -/
theorem bind_eq_ok {x : Except ε α} {f : α → Except ε β} {b : β} (h : x >>= f = .ok b) :
    ∃ a, x = .ok a ∧ f a = .ok b := by
  cases x with
  | error e => cases h
  | ok a => exact ⟨a, rfl, h⟩

/-- A computation with a second step that fails does so in one of the steps. -/
theorem bind_eq_error {x : Except ε α} {f : α → Except ε β} {e : ε} (h : x >>= f = .error e) :
    x = .error e ∨ ∃ a, x = .ok a ∧ f a = .error e := by
  cases x with
  | error e' => exact .inl (by cases h; rfl)
  | ok a => exact .inr ⟨a, rfl, h⟩

end

/-! ## §2. Lists. -/

section

variable {α β γ : Type} {R : α → β → Prop} {as : List α} {bs : List β}

/-- Each of some values stands next to one that it is related to. -/
theorem exists_related (h : List.Forall₂ R as bs) : ∀ a ∈ as, ∃ b ∈ bs, R a b := by
  induction h with
  | nil => exact List.forall_mem_nil _
  | cons hd _ ih =>
    refine List.forall_mem_cons.mpr ⟨⟨_, List.mem_cons_self, hd⟩, fun a ha => ?_⟩
    obtain ⟨b, hb, hab⟩ := ih a ha
    exact ⟨b, List.mem_cons_of_mem _ hb, hab⟩

theorem zipIdx_related (h : List.Forall₂ R as bs) (i : Nat) :
    List.Forall₂ (fun p q => R p.1 q.1 ∧ p.2 = q.2) (as.zipIdx i) (bs.zipIdx i) := by
  induction h generalizing i with
  | nil => exact .nil
  | cons h _ ih => exact .cons ⟨h, rfl⟩ (ih (i + 1))

theorem related_of_mapM {f : α → Option β} (h : as.mapM f = some bs) :
    List.Forall₂ (fun a b => f a = some b) as bs := by
  induction as generalizing bs with
  | nil =>
    cases h
    exact .nil
  | cons a as ih =>
    rw [List.mapM_cons] at h
    obtain ⟨b, hb, h⟩ := Option.bind_eq_some_iff.mp h
    obtain ⟨bs, hbs, h⟩ := Option.bind_eq_some_iff.mp h
    cases h
    exact .cons hb (ih hbs)

/-- Related lists whose elements agree in a feature. -/
theorem forall₂_and_of_map_eq {f : α → γ} {g : β → γ} (h : List.Forall₂ R as bs)
    (heq : bs.map g = as.map f) : List.Forall₂ (fun a b => R a b ∧ g b = f a) as bs := by
  induction h with
  | nil => exact .nil
  | cons head _ ih =>
    rw [List.map_cons, List.map_cons] at heq
    obtain ⟨hhead, htail⟩ := List.cons.inj heq
    exact .cons ⟨head, hhead⟩ (ih htail)

theorem foldl_unchanged {f : β → α → β} (b : β) (h : ∀ b, ∀ a ∈ as, f b a = b) :
    as.foldl f b = b := by
  induction as with
  | nil => rfl
  | cons a as ih =>
    rw [List.foldl_cons, h b a List.mem_cons_self]
    exact ih fun b c hc => h b c (List.mem_cons_of_mem _ hc)

theorem findSome?_cons_eq_or (f : α → Option β) (a : α) (l : List α) :
    (a :: l).findSome? f = (f a).or (l.findSome? f) := by
  rw [List.findSome?_cons]
  cases f a with
  | none => rfl
  | some b => rfl

/-- The first hit in lists that are put one behind the other is that of the first list with one. -/
theorem findSome?_flatMap {f : α → List β} {p : β → Option γ} {g : α → Option γ} {l : List α}
    (h : ∀ a ∈ l, (f a).findSome? p = g a) : (l.flatMap f).findSome? p = l.findSome? g := by
  induction l with
  | nil => rfl
  | cons a l ih =>
    obtain ⟨ha, hl⟩ := List.forall_mem_cons.mp h
    rw [List.flatMap_cons, List.findSome?_append, ha, ih hl, findSome?_cons_eq_or]

end

end Resumable
