/-
  Resumable.Proofs.Frames.Histories — a stack of frames acts as a stack of plain lists.

  The content of a frame is its buffer followed by its tail.  `Lists` is the stack that has the
  contents only: its calls append to a list, insert into it and read its length, and know of no
  buffer.  Every call on frames is the same call on their contents (`call_contents`), except that
  an element can be put into the tail only at its start.

  That a mark is never inside the tail is a matter of the calls that were made: a mark is the
  length of the buffer when it is given, the buffer of a frame never shrinks, and the frames above
  it do not touch it (`call_cases`).  So a mark stays good for as long as its frame is open, however
  often that frame is flushed and whatever was opened and closed above it (`Holds.le_buffer`).

  Main statement: `run_eq_lists`.
-/
import Resumable.Proofs.Walk.Extension

namespace Resumable.Program

variable {α σ : Type}

/-! ## §1. Calls. -/

/-- A call on a stack. -/
inductive Frames.Call (α : Type) where
  | push
  | pop
  | emit (x : α)
  | emitAll (xs : List α)
  | defer (x : α)
  | flush
  | mark
  | insertAt (mark : Nat) (x : α)
  deriving DecidableEq, Repr

/-- What a call gives back. -/
inductive Frames.Reply (α : Type) where
  | done
  | list (xs : List α)
  | position (n : Nat)
  deriving DecidableEq, Repr

/-- What a call on frames gives back, and the frames after it; the root frame cannot be closed. -/
def Frames.call (s : Frames α) : Call α → Option (Reply α × Frames α)
  | .push => some (.done, s.push)
  | .pop => s.pop?.map (Prod.map .list id)
  | .emit x => some (.done, s.emit x)
  | .emitAll xs => some (.done, s.emitAll xs)
  | .defer x => some (.done, s.defer x)
  | .flush => some (.done, s.flush)
  | .mark => some (.position s.mark.1, s.mark.2)
  | .insertAt mark x => some (.done, s.insertAt mark x)

/-- A stack of plain lists: the one in use and those below it. -/
structure Lists (α : Type) where
  top : List α := []
  below : List (List α) := []
  deriving DecidableEq, Repr

namespace Lists

open Frames (Call Reply)

/-- What a call on plain lists gives back, and the lists after it.  The last list cannot be closed,
    and nothing can be inserted behind the end of a list. -/
def call (l : Lists α) : Call α → Option (Reply α × Lists α)
  | .push => some (.done, { top := [], below := l.top :: l.below })
  | .pop =>
      match l.below with
      | [] => none
      | xs :: rest => some (.list l.top, { top := xs, below := rest })
  | .emit x | .defer x => some (.done, { l with top := l.top ++ [x] })
  | .emitAll xs => some (.done, { l with top := l.top ++ xs })
  | .flush => some (.done, l)
  | .mark => some (.position l.top.length, l)
  | .insertAt k x =>
      if k ≤ l.top.length then
        some (.done, { l with top := l.top.take k ++ x :: l.top.drop k })
      else none

/-- The list below all others. -/
def bottom (l : Lists α) : List α := l.below.getLastD l.top

end Lists

namespace Frames

/-- The contents of the frames. -/
def contents (s : Frames α) : Lists α :=
  { top := s.top.content, below := s.below.map Frame.content }

/-- Makes calls one after the other.  The answer is what each gives back, and the last stack. -/
def run (call : σ → Call α → Option (Reply α × σ)) :
    σ → List (Call α) → Option (List (Reply α) × σ)
  | s, [] => some ([], s)
  | s, c :: cs =>
      (call s c).bind fun (r, s₁) => (run call s₁ cs).map fun (rs, s₂) => (r :: rs, s₂)

section

variable {call : σ → Call α → Option (Reply α × σ)} {s s' : σ} {c : Call α} {cs cs' : List (Call α)}
  {rs : List (Reply α)}

theorem run_cons_eq_some : run call s (c :: cs) = some (rs, s') ↔
    ∃ r s₁ rs', call s c = some (r, s₁) ∧ run call s₁ cs = some (rs', s') ∧ rs = r :: rs' := by
  rw [run, Option.bind_eq_some_iff]
  constructor
  · rintro ⟨⟨r, s₁⟩, hc, h⟩
    obtain ⟨⟨rs', s₂⟩, hcs, heq⟩ := Option.map_eq_some_iff.mp h
    cases heq
    exact ⟨r, s₁, rs', hc, hcs, rfl⟩
  · rintro ⟨r, s₁, rs', hc, hcs, rfl⟩
    refine ⟨(r, s₁), hc, ?_⟩
    show (run call s₁ cs).map _ = _
    rw [hcs]
    rfl

theorem run_append_eq_some : run call s (cs ++ cs') = some (rs, s') ↔
    ∃ rs₁ s₁ rs₂, run call s cs = some (rs₁, s₁) ∧ run call s₁ cs' = some (rs₂, s') ∧
      rs = rs₁ ++ rs₂ := by
  induction cs generalizing s rs with
  | nil =>
    constructor
    · intro h
      exact ⟨[], s, rs, rfl, h, rfl⟩
    · rintro ⟨rs₁, s₁, rs₂, h, h', rfl⟩
      cases h
      exact h'
  | cons c cs ih =>
    rw [List.cons_append, run_cons_eq_some]
    constructor
    · rintro ⟨r, s₁, rs', hc, h, rfl⟩
      obtain ⟨rs₁, s₂, rs₂, h₁, h₂, rfl⟩ := ih.mp h
      exact ⟨r :: rs₁, s₂, rs₂, run_cons_eq_some.mpr ⟨r, s₁, rs₁, hc, h₁, rfl⟩, h₂, rfl⟩
    · rintro ⟨rs₁, s₁, rs₂, h₁, h₂, rfl⟩
      obtain ⟨r, s₂, rs', hc, h, rfl⟩ := run_cons_eq_some.mp h₁
      exact ⟨r, s₂, rs' ++ rs₂, hc, ih.mpr ⟨rs', s₁, rs₂, h, h₂, rfl⟩, rfl⟩

end

/-! ## §2. One call. -/

section

variable {s s' : Frames α} {c : Call α} {r : Reply α}

theorem buffer_le_insertAt (s : Frames α) (k : Nat) (x : α) :
    s.top.buffer.length ≤ (s.insertAt k x).top.buffer.length := by
  show s.top.buffer.length ≤ (s.top.insertAt k x).buffer.length
  unfold Frame.insertAt
  split
  · exact Nat.le_refl _
  · rw [List.length_append, List.length_cons, List.length_take, List.length_drop]
    omega

/-- What a call does to the frames.  Opening and closing leave the other frames as they are, and
    any other call has to do with the frame in use only and takes nothing out of its buffer. -/
theorem call_cases (h : s.call c = some (r, s')) :
    (c = .push ∧ s' = s.push) ∨
    (c = .pop ∧ s.below = s'.top :: s'.below) ∨
    (c ≠ .push ∧ c ≠ .pop ∧ s'.below = s.below ∧ s.top.buffer.length ≤ s'.top.buffer.length) := by
  cases c with
  | push =>
    cases h
    exact .inl ⟨rfl, rfl⟩
  | pop =>
    refine .inr (.inl ⟨rfl, ?_⟩)
    obtain ⟨⟨xs, s₁⟩, hpop, hs'⟩ := Option.map_eq_some_iff.mp h
    cases hs'
    unfold pop? at hpop
    split at hpop
    · cases hpop
    · next hbelow =>
      cases hpop
      exact hbelow
  | emit x =>
    cases h
    exact .inr (.inr ⟨by simp, by simp, rfl, (Extends.emit s x).buffer⟩)
  | emitAll xs =>
    cases h
    exact .inr (.inr ⟨by simp, by simp, rfl, (Extends.emitAll s xs).buffer⟩)
  | defer x =>
    cases h
    exact .inr (.inr ⟨by simp, by simp, rfl, (Extends.defer s x).buffer⟩)
  | flush | mark =>
    cases h
    exact .inr (.inr ⟨by simp, by simp, rfl, (Extends.mark s).buffer⟩)
  | insertAt k x =>
    cases h
    exact .inr (.inr ⟨by simp, by simp, rfl, buffer_le_insertAt s k x⟩)

@[simp] theorem contents_emitAll (s : Frames α) (xs : List α) :
    (s.emitAll xs).contents = { s.contents with top := s.contents.top ++ xs } := by
  simp [contents, emitAll]

@[simp] theorem contents_defer (s : Frames α) (x : α) :
    (s.defer x).contents = { s.contents with top := s.contents.top ++ [x] } := by
  simp [contents, defer]

@[simp] theorem contents_flush (s : Frames α) : s.flush.contents = s.contents := by
  simp [contents, flush]

theorem contents_insertAt {k : Nat} (x : α) (h : k ≤ s.top.buffer.length) :
    (s.insertAt k x).contents =
      { s.contents with top := s.contents.top.take k ++ x :: s.contents.top.drop k } := by
  show ({ top := (s.top.insertAt k x).content, below := _ } : Lists α) = _
  rw [Frame.content_insertAt _ _ _ h]
  rfl

/-- A call on frames is the same call on their contents, unless something is to be put into the
    tail behind its start. -/
theorem call_contents (h : ∀ k x, c = .insertAt k x → k ≤ s.top.buffer.length) :
    (s.call c).map (Prod.map id contents) = s.contents.call c := by
  cases c with
  | push => rfl
  | pop =>
    unfold call pop? Lists.call contents
    cases s.below <;> rfl
  | emit x => exact congrArg (fun l => some (Reply.done, l)) (contents_emitAll s [x])
  | emitAll xs => exact congrArg (fun l => some (Reply.done, l)) (contents_emitAll s xs)
  | defer x => exact congrArg (fun l => some (Reply.done, l)) (contents_defer s x)
  | flush => exact congrArg (fun l => some (Reply.done, l)) (contents_flush s)
  | mark =>
    exact congrArg (fun l => some (Reply.position s.top.content.length, l)) (contents_flush s)
  | insertAt k x =>
    have hk : k ≤ s.top.buffer.length := h k x rfl
    have hin : k ≤ s.contents.top.length := by
      show k ≤ (s.top.buffer ++ s.top.tail).length
      rw [List.length_append]
      omega
    rw [Lists.call, if_pos hin, ← contents_insertAt x hk]
    rfl

/-- The root frame hands over the list at the bottom, and keeps it. -/
theorem root_contents (s : Frames α) :
    s.root.1 = s.contents.bottom ∧ s.root.2.contents = s.contents := by
  rcases s with ⟨top, below⟩
  cases hbelow : below.reverse with
  | nil =>
    cases List.reverse_eq_nil_iff.mp hbelow
    exact ⟨rfl, contents_flush _⟩
  | cons last others =>
    -- the root frame is the last one, and only its tail is flushed
    have hlast : below = others.reverse ++ [last] := by
      rw [← List.reverse_reverse below, hbelow, List.reverse_cons]
    have hroot : root { top, below } =
        (last.content, { top, below := others.reverse ++ [last.flush] }) := by
      cases below with
      | nil => cases hbelow
      | cons f rest =>
        show (((f :: rest).getLastD top).content, ({ top, below := (f :: rest).dropLast ++
          [((f :: rest).getLastD top).flush] } : Frames α)) = _
        rw [hlast]
        simp
    rw [hroot, hlast]
    simp [contents, Lists.bottom]

end

/-! ## §3. Marks. -/

/-- How many frames above the one they start on some calls end, unless they close that one. -/
def climb : Nat → List (Call α) → Option Nat
  | d, [] => some d
  | d, .push :: cs => climb (d + 1) cs
  | 0, .pop :: _ => none
  | d + 1, .pop :: cs => climb d cs
  | d, _ :: cs => climb d cs

/-- Whether a mark was given on the frame that is in use after some calls. -/
def Holds (past : List (Call α)) (k : Nat) : Prop :=
  ∃ before during rs s, past = before ++ .mark :: during ∧ climb 0 during = some 0 ∧
    run call ({} : Frames α) (before ++ [.mark]) = some (rs ++ [.position k], s)

/-- Whether whatever is put at a mark is put at one that was given on the frame in use. -/
def KeepsToMarks (past : List (Call α)) : List (Call α) → Prop
  | [] => True
  | .insertAt k x :: cs => Holds past k ∧ KeepsToMarks (past ++ [.insertAt k x]) cs
  | c :: cs => KeepsToMarks (past ++ [c]) cs

section

variable {s s' : Frames α} {c : Call α} {cs past : List (Call α)} {rs : List (Reply α)}
  {k d d' : Nat}

theorem climb_cons_of_ne (hpush : c ≠ .push) (hpop : c ≠ .pop) :
    climb d (c :: cs) = climb d cs := by
  cases c with
  | push => exact absurd rfl hpush
  | pop => exact absurd rfl hpop
  | _ => rfl

theorem KeepsToMarks.cons (h : KeepsToMarks past (c :: cs)) :
    (∀ k x, c = .insertAt k x → Holds past k) ∧ KeepsToMarks (past ++ [c]) cs := by
  cases c with
  | insertAt k x =>
    refine ⟨?_, h.2⟩
    rintro _ _ ⟨⟩
    exact h.1
  | _ =>
    refine ⟨?_, h⟩
    rintro _ _ ⟨⟩

/-- Calls come to an end unless they close the root frame. -/
theorem isSome_run (s : Frames α) (cs : List (Call α)) :
    (run call s cs).isSome = (climb s.below.length cs).isSome := by
  induction cs generalizing s with
  | nil => rfl
  | cons c cs ih =>
    have hnext {r : Reply α} {s₁ : Frames α} (hc : s.call c = some (r, s₁)) :
        (run call s (c :: cs)).isSome = (run call s₁ cs).isSome := by
      rw [run, hc]
      exact Option.isSome_map
    cases c with
    | push =>
      rw [hnext rfl, ih]
      rfl
    | pop =>
      rcases s with ⟨top, below⟩
      cases below with
      | nil => rfl
      | cons f rest =>
        rw [hnext rfl, ih]
        rfl
    | _ =>
      rw [hnext rfl, ih]
      rfl

/-- A frame that is open throughout some calls has no shorter buffer behind them. -/
theorem buffer_grows (hclimb : climb d cs = some d') (hrun : run call s cs = some (rs, s'))
    {f : Frame α} (hf : (s.top :: s.below)[d]? = some f) :
    ∃ f', (s'.top :: s'.below)[d']? = some f' ∧ f.buffer.length ≤ f'.buffer.length := by
  induction cs generalizing d s rs f with
  | nil =>
    cases hclimb
    cases hrun
    exact ⟨f, hf, Nat.le_refl _⟩
  | cons c cs ih =>
    obtain ⟨r, s₁, rs', hc, hcs, -⟩ := run_cons_eq_some.mp hrun
    rcases call_cases hc with ⟨rfl, rfl⟩ | ⟨rfl, hbelow⟩ | ⟨hpush, hpop, hbelow, hbuffer⟩
    · -- the frame is one further down
      exact ih hclimb hcs hf
    · cases d with
      | zero => cases hclimb
      | succ d =>
        rw [List.getElem?_cons_succ, hbelow] at hf
        exact ih hclimb hcs hf
    · rw [climb_cons_of_ne hpush hpop] at hclimb
      cases d with
      | zero =>
        cases hf
        obtain ⟨f', hf', hle⟩ := ih hclimb hcs (f := s₁.top) rfl
        exact ⟨f', hf', Nat.le_trans hbuffer hle⟩
      | succ d =>
        rw [List.getElem?_cons_succ, ← hbelow] at hf
        exact ih hclimb hcs hf

/-- A mark of the frame in use is a place of its buffer, or the end of it. -/
theorem Holds.le_buffer (h : Holds past k) (hrun : run call {} past = some (rs, s)) :
    k ≤ s.top.buffer.length := by
  obtain ⟨before, during, rs₀, s₀, rfl, hclimb, hmark⟩ := h
  rw [List.append_cons] at hrun
  obtain ⟨rs₁, s₁, rs₂, hfront, hduring, -⟩ := run_append_eq_some.mp hrun
  cases hmark.symm.trans hfront
  obtain ⟨rs₃, s₂, rs₄, -, hanswer, heq⟩ := run_append_eq_some.mp hmark
  cases hanswer
  obtain ⟨-, hk⟩ := List.append_inj' heq rfl
  cases hk
  obtain ⟨f, hf, hle⟩ := buffer_grows hclimb hduring (f := s₂.flush.top) rfl
  cases hf
  exact hle

/-- Calls on frames are the same calls on their contents. -/
theorem run_contents (hpast : run call {} past = some (rs, s)) (h : KeepsToMarks past cs) :
    (run call s cs).map (Prod.map id contents) = run Lists.call s.contents cs := by
  induction cs generalizing past rs s with
  | nil => rfl
  | cons c cs ih =>
    obtain ⟨hmark, hrest⟩ := h.cons
    have hstep := call_contents (s := s) fun k x hc => (hmark k x hc).le_buffer hpast
    rw [run, run, ← hstep]
    cases hc : s.call c with
    | none => rfl
    | some answer =>
      obtain ⟨r, s₁⟩ := answer
      have hlast : run call s [c] = some ([r], s₁) :=
        run_cons_eq_some.mpr ⟨r, s₁, [], hc, rfl, rfl⟩
      have hpast₁ : run call {} (past ++ [c]) = some (rs ++ [r], s₁) :=
        run_append_eq_some.mpr ⟨rs, s, [r], hpast, hlast, rfl⟩
      show ((run call s₁ cs).map _).map _ = (run Lists.call s₁.contents cs).map _
      rw [← ih hpast₁ hrest, Option.map_map, Option.map_map]
      rfl

end

/-! ## §4. Frames and lists. -/

/-- Calls on a new stack of frames, in which whatever is put at a mark is put at one that was given
    on the frame in use, are the same calls on plain lists: they give back the same and lead to the
    same contents.  They come to an end unless they close the root frame.  At the end the root
    frame hands over the list at the bottom, and the next call leaves the frames below the one in
    use as they are. -/
theorem run_eq_lists (cs : List (Call α)) (h : KeepsToMarks [] cs) :
    (run call {} cs).map (Prod.map id contents) = run Lists.call {} cs ∧
    (run call ({} : Frames α) cs).isSome = (climb 0 cs).isSome ∧
    ∀ rs s, run call ({} : Frames α) cs = some (rs, s) →
      s.root.1 = s.contents.bottom ∧ s.root.2.contents = s.contents ∧
      s.balanced = s.contents.below.isEmpty ∧
      ∀ c r s', s.call c = some (r, s') →
        (c = .push ∧ s'.below = s.top :: s.below) ∨ (c = .pop ∧ s.below = s'.top :: s'.below) ∨
          (c ≠ .push ∧ c ≠ .pop ∧ s'.below = s.below) := by
  refine ⟨run_contents rfl h, isSome_run {} cs, fun rs s _ => ?_⟩
  refine ⟨s.root_contents.1, s.root_contents.2, ?_, fun c r s' hc => ?_⟩
  · exact (List.isEmpty_map).symm
  · rcases call_cases hc with ⟨rfl, rfl⟩ | hpop | ⟨hpush, hpop, hbelow, -⟩
    · exact .inl ⟨rfl, rfl⟩
    · exact .inr (.inl hpop)
    · exact .inr (.inr ⟨hpush, hpop, hbelow⟩)

/-- A mark is used again behind an element that went into the tail and a frame that was opened and
    closed; the frame above has a mark of its own. -/
theorem run_eq_lists_of_nested :
    let cs : List (Call Nat) :=
      [.defer 1, .mark, .insertAt 1 2, .push, .emit 3, .mark, .defer 4, .insertAt 1 5, .pop,
        .emitAll [6, 7], .defer 8, .insertAt 1 9, .mark]
    KeepsToMarks [] cs ∧
    (run call {} cs).map (Prod.map id contents) =
      some ([.done, .position 1, .done, .done, .done, .position 1, .done, .done, .list [3, 5, 4],
        .done, .done, .done, .position 6], { top := [1, 9, 2, 6, 7, 8] }) := by
  intro cs
  have hmarks : KeepsToMarks [] cs :=
    ⟨⟨[.defer 1], [], [.done], _, rfl, rfl, rfl⟩,
      ⟨[.defer 1, .mark, .insertAt 1 2, .push, .emit 3], [.defer 4],
        [.done, .position 1, .done, .done, .done], _, rfl, rfl, rfl⟩,
      ⟨[.defer 1], [.insertAt 1 2, .push, .emit 3, .mark, .defer 4, .insertAt 1 5, .pop,
        .emitAll [6, 7], .defer 8], [.done], _, rfl, rfl, rfl⟩, trivial⟩
  refine ⟨hmarks, ?_⟩
  rw [(run_eq_lists cs hmarks).1]
  decide

end Frames

end Resumable.Program
