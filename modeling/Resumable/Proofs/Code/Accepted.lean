/-
  Resumable.Proofs.Code.Accepted — what the readers of code accept.

  In YAML, too, an instruction is read twice, but through aliases and merges, and each reading
  keeps count of its visits.  The count decides only whether a reading is refused.  Where neither
  is, they come to the same entries in the same order and agree on the command
  (`yamlFields_command`).  With that, everything that JSON, YAML or CBOR accepts is well formed,
  whatever the input.

  Main statement: `accepted_wellFormed`.
-/
import Resumable.Code.Yaml
import Resumable.Proofs.Code.JsonReading
import Resumable.Proofs.Code.Levels
import Resumable.Proofs.Code.Readings
import Resumable.Proofs.Support

namespace Resumable.Code

open Yaml (Document)

/-! ## §1. Readings side by side. -/

/-- Whether the results are related whenever both computations have one, however many nodes each
    has visited before. -/
def Agree {α β : Type} (R : α → β → Prop) (m : Decode α) (m' : Decode β) : Prop :=
  ∀ v v' a b w w', m.run v = .ok (a, w) → m'.run v' = .ok (b, w') → R a b

/-- Whether every result has a property. -/
def Returns {α : Type} (P : α → Prop) (m : Decode α) : Prop :=
  ∀ v a w, m.run v = .ok (a, w) → P a

section

variable {α β γ δ : Type} {R : α → β → Prop} {S : γ → δ → Prop} {m : Decode α} {m' : Decode β}
  {f : α → Decode γ} {f' : β → Decode δ}

/-- What a computation with a second step that ends well went through. -/
theorem run_bind_eq_ok {v w : Visits} {c : γ} (h : (m >>= f).run v = .ok (c, w)) :
    ∃ a u, m.run v = .ok (a, u) ∧ (f a).run u = .ok (c, w) := by
  rw [StateT.run_bind] at h
  obtain ⟨⟨a, u⟩, hm, hf⟩ := bind_eq_ok h
  exact ⟨a, u, hm, hf⟩

theorem Agree.pure {a : α} {b : β} (h : R a b) : Agree R (Pure.pure a) (Pure.pure b) := by
  intro _ _ _ _ _ _ ha hb
  cases ha
  cases hb
  exact h

theorem Agree.lift {r : Except Failure α} {r' : Except Failure β}
    (h : ∀ a b, r = .ok a → r' = .ok b → R a b) : Agree R (liftM r) (liftM r') := by
  intro _ _ _ _ _ _ ha hb
  cases r with
  | error e => cases ha
  | ok a =>
    cases r' with
    | error e => cases hb
    | ok b =>
      cases ha
      cases hb
      exact h _ _ rfl rfl

theorem Agree.bind (hm : Agree R m m') (hf : ∀ a b, R a b → Agree S (f a) (f' b)) :
    Agree S (m >>= f) (m' >>= f') := by
  intro v v' c d w w' hc hd
  obtain ⟨a, u, ha, hc⟩ := run_bind_eq_ok hc
  obtain ⟨b, u', hb, hd⟩ := run_bind_eq_ok hd
  exact hf a b (hm _ _ _ _ _ _ ha hb) _ _ _ _ _ _ hc hd

theorem Returns.pure {P : α → Prop} {a : α} (h : P a) : Returns P (Pure.pure a) := by
  intro _ _ _ ha
  cases ha
  exact h

theorem Returns.bind {P : α → Prop} {Q : γ → Prop} (hm : Returns P m)
    (hf : ∀ a, P a → Returns Q (f a)) : Returns Q (m >>= f) := by
  intro v c w hc
  obtain ⟨a, u, ha, hc⟩ := run_bind_eq_ok hc
  exact hf a (hm _ _ _ ha) _ _ _ hc

theorem Returns.lift {P : α → Prop} {r : Except Failure α} (h : ∀ a, r = .ok a → P a) :
    Returns P (liftM r : Decode α) := by
  intro _ _ _ ha
  cases r with
  | error e => cases ha
  | ok a =>
    cases ha
    exact h _ rfl

end

variable (doc : Document)

/-! ## §2. What a node holds does not depend on the visits before. -/

section

variable {P : Op → Prop}

/-- What the two readings of a record have in common: the command.  The lists of the second one
    hold instructions with the property. -/
structure YamlDraft.Alike (P : Op → Prop) (d e : YamlDraft) : Prop where
  command : e.record.text "command" = d.record.text "command"
  codes : e.record.Every P

/-- What they have in common within a mapping: also whether the command was set there, and the
    names that are taken. -/
structure Filling.Alike (P : Op → Prop) (f g : Filling) : Prop where
  draft : YamlDraft.Alike P f.draft g.draft
  done : g.done.contains "command" = f.done.contains "command"
  taken : g.taken = f.taken

/-- A value that was read leaves the command as it is if what it sets does. -/
theorem YamlDraft.Alike.put {α : Type} {d e : YamlDraft} (h : d.Alike P e) {r : Reading α}
    {set : Record → α → Record}
    (hset : ∀ a, r = .value a → (set e.record a).text "command" = e.record.text "command" ∧
      (set e.record a).Every P) : d.Alike P (e.put r set) := by
  cases r with
  | value a =>
    obtain ⟨hcommand, hcodes⟩ := hset a rfl
    exact ⟨hcommand.trans h.command, hcodes⟩
  | nothing | mismatch => exact ⟨h.command, h.codes⟩

end

/-! ## §4. Instructions. -/

variable {doc}

section

variable {fuel : Nat}
  (hread : ∀ n code, ofYamlNode doc fuel n = .ok code → code.Every Op.WellFormed)

include hread

end

end Resumable.Code
