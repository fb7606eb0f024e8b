/-
  Resumable.Proofs.Walk.Extension — what a step of a walk does to its state.

  A step that ends well leaves the frames below the one in use alone and appends to the content of
  that one.  `Frames.Extends` says so, for any sequence of steps, and `bind_ok` takes a sequence
  apart.  The buffer never shrinks, so a position that `mark` gave stays one inside the buffer, and
  putting an element there is putting it before everything collected since
  (`Extends.insertAt_mark`).
-/
import Resumable.Program.Transform

namespace Resumable.Program

variable {α β : Type}

/-! ## §1. Frames. -/

theorem Frame.content_insertAt (f : Frame α) (mark : Nat) (x : α) (h : mark ≤ f.buffer.length) :
    (f.insertAt mark x).content = f.content.take mark ++ x :: f.content.drop mark := by
  unfold Frame.insertAt Frame.content
  by_cases hm : mark ≥ f.buffer.length
  · have heq : mark = f.buffer.length := by omega
    rw [if_pos hm, heq, List.take_left, List.drop_left]
  · rw [if_neg hm, List.take_append_of_le_length h, List.drop_append_of_le_length h]
    simp

namespace Frames

/-- The second stack is the first with a list collected in the frame in use. -/
structure Extends (s s' : Frames α) (xs : List α) : Prop where
  below : s'.below = s.below
  content : s'.top.content = s.top.content ++ xs
  buffer : s.top.buffer.length ≤ s'.top.buffer.length

namespace Extends

variable {s s₁ s₂ : Frames α} {xs ys : List α}

theorem refl (s : Frames α) : Extends s s [] :=
  ⟨rfl, by simp, Nat.le_refl _⟩

theorem trans (h : Extends s s₁ xs) (h' : Extends s₁ s₂ ys) : Extends s s₂ (xs ++ ys) := by
  refine ⟨h'.below.trans h.below, ?_, Nat.le_trans h.buffer h'.buffer⟩
  rw [h'.content, h.content, List.append_assoc]

theorem emitAll (s : Frames α) (xs : List α) : Extends s (s.emitAll xs) xs := by
  refine ⟨rfl, Frame.content_emitAll s.top xs, ?_⟩
  simp [Frames.emitAll, Frame.emitAll, Frame.flush]

theorem emit (s : Frames α) (x : α) : Extends s (s.emit x) [x] := emitAll s [x]

theorem defer (s : Frames α) (x : α) : Extends s (s.defer x) [x] :=
  ⟨rfl, Frame.content_defer s.top x, Nat.le_refl _⟩

theorem mark (s : Frames α) : Extends s s.mark.2 [] := by
  refine ⟨rfl, ?_, ?_⟩
  · show s.top.flush.content = _
    simp
  · show s.top.buffer.length ≤ s.top.flush.buffer.length
    simp [Frame.flush]

/-- What is put at a mark stands before everything collected since. -/
theorem insertAt_mark (x : α) (h : Extends s.mark.2 s₁ xs) :
    Extends s (s₁.insertAt s.mark.1 x) (x :: xs) := by
  have hflush : s.mark.2.top = s.top.flush := rfl
  have hlen : s.mark.1 = s.top.content.length := rfl
  have hcontent : s₁.top.content = s.top.content ++ xs := by
    rw [h.content, hflush, Frame.content_flush]
  -- the mark is the whole content of the old frame, so it lies inside the new buffer
  have hmark : s.mark.1 ≤ s₁.top.buffer.length := h.buffer
  refine ⟨h.below, ?_, ?_⟩
  · show (s₁.top.insertAt s.mark.1 x).content = _
    rw [Frame.content_insertAt _ _ _ hmark, hcontent, hlen, List.take_left, List.drop_left]
  · show s.top.buffer.length ≤ (s₁.top.insertAt s.mark.1 x).buffer.length
    have hgrown : s.top.buffer.length ≤ s.top.content.length := by
      simp [Frame.content]
    have hkept : s₁.top.buffer.length ≤ (s₁.top.insertAt s.mark.1 x).buffer.length := by
      unfold Frame.insertAt
      split
      · exact Nat.le_refl _
      · simp; omega
    omega

end Extends

/-- A frame opened and closed again hands over what was collected in it. -/
theorem pop?_of_extends_push {s s' : Frames α} {xs : List α} (h : Extends s.push s' xs) :
    s'.pop? = some (xs, s) := by
  have hbelow : s'.below = s.top :: s.below := h.below
  have hcontent : s'.top.content = xs := by
    rw [h.content]
    simp [push, Frame.content]
  unfold pop?
  rw [hbelow, hcontent]

end Frames

/-! ## §2. Sequences of steps. -/

namespace Walk

variable {s s' : State}

theorem bind_ok {x : Walk α} {f : α → Walk β} {b : β} :
    (x >>= f) s = (.ok b, s') ↔ ∃ a s₁, x s = (.ok a, s₁) ∧ f a s₁ = (.ok b, s') := by
  show (ExceptT.bindCont f (x s).1) (x s).2 = _ ↔ _
  rcases hx : x s with ⟨r, s₁⟩
  cases r with
  | error e =>
    constructor
    · intro h
      cases h
    · rintro ⟨a, s₂, h, _⟩
      cases h
  | ok a =>
    constructor
    · intro h
      exact ⟨a, s₁, rfl, h⟩
    · rintro ⟨a', s₂, h, h'⟩
      cases h
      exact h'

theorem map_ok {x : Walk α} {f : α → β} {b : β} :
    (f <$> x) s = (.ok b, s') ↔ ∃ a, x s = (.ok a, s') ∧ f a = b := by
  rw [map_eq_pure_bind, bind_ok]
  constructor
  · rintro ⟨a, s₁, ha, h⟩
    cases h
    exact ⟨a, ha, rfl⟩
  · rintro ⟨a, ha, rfl⟩
    exact ⟨a, s', ha, rfl⟩

theorem inside_ok {name : String} {body : Walk α} {a : α} :
    inside name body s = (.ok a, s') ↔
      ∃ s₁, body { s with trail := s.trail.enter name } = (.ok a, s₁) ∧
        { s₁ with trail := s₁.trail.leave } = s' := by
  unfold inside
  rcases body { s with trail := s.trail.enter name } with ⟨r, s₁⟩
  constructor
  · intro h
    cases h
    exact ⟨s₁, rfl, rfl⟩
  · rintro ⟨s₂, h, rfl⟩
    cases h
    rfl

theorem framed_ok {body : Walk α} {a : α} {list : List Instr} :
    framed body s = (.ok (a, list), s') ↔
      ∃ s₁, body { s with frames := s.frames.push } = (.ok a, s₁) ∧
        (s₁.frames.pop?.getD ([], s₁.frames)).1 = list ∧
        { s₁ with frames := (s₁.frames.pop?.getD ([], s₁.frames)).2 } = s' := by
  unfold framed
  rcases body { s with frames := s.frames.push } with ⟨r, s₁⟩
  constructor
  · intro h
    cases r with
    | error e => cases h
    | ok a' =>
      cases h
      exact ⟨s₁, rfl, rfl, rfl⟩
  · rintro ⟨s₂, h, rfl, rfl⟩
    cases h
    rfl

/-- A node that cannot stand where it stands ends the walk. -/
theorem misplaced_ne_ok {n : Node} {a : α} : (misplaced n : Walk α) s ≠ (.ok a, s') := by
  intro h
  unfold misplaced at h
  obtain ⟨t, s₁, _, h⟩ := bind_ok.mp h
  split at h <;> cases h

end Walk

end Resumable.Program
