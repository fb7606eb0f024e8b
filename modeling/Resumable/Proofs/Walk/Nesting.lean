/-
  Resumable.Proofs.Walk.Nesting — instructions inside instructions.

  `inner` lists what an instruction holds, so that a walk over a program is the same for branches,
  loops and function declarations: the instruction, then its inner list (`walk_eq`).
-/
import Resumable.Program.Instr

namespace Resumable.Program.Instr

/-- The instructions that an instruction holds. -/
def inner : Instr → List Instr
  | leaf _ _ _ => []
  | branch _ yes no _ _ _ _ => yes ++ no
  | loop _ test step body _ _ => test ++ step ++ body
  | defun _ _ body => body

theorem walkAll_append (xs ys : List Instr) : walkAll (xs ++ ys) = walkAll xs ++ walkAll ys := by
  induction xs with
  | nil => simp [walkAll]
  | cons x xs ih => simp [walkAll, ih]

theorem walk_eq (i : Instr) : i.walk = i :: walkAll i.inner := by
  cases i with
  | leaf c n a => simp [walk, inner, walkAll]
  | branch c yes no e sh yt nt => rw [walk, inner, walkAll_append]
  | loop c test step body cs st => rw [walk, inner, walkAll_append, walkAll_append]
  | defun f ps body => rw [walk, inner]

theorem walkAll_cons (i : Instr) (rest : List Instr) :
    walkAll (i :: rest) = i :: (walkAll i.inner ++ walkAll rest) := by
  rw [walkAll, walk_eq, List.cons_append]

/-! ## §1. Properties. -/

/-- A property of all instructions of a list, nested ones included. -/
def Every (P : Instr → Prop) (list : List Instr) : Prop := ∀ i ∈ walkAll list, P i

section

variable {P : Instr → Prop} {i : Instr} {xs ys : List Instr}

theorem every_nil : Every P [] := List.forall_mem_nil _

theorem every_append : Every P (xs ++ ys) ↔ Every P xs ∧ Every P ys := by
  unfold Every
  rw [walkAll_append, List.forall_mem_append]

theorem every_cons : Every P (i :: xs) ↔ P i ∧ Every P i.inner ∧ Every P xs := by
  unfold Every
  rw [walkAll_cons, List.forall_mem_cons, List.forall_mem_append]

theorem every_single : Every P [i] ↔ P i ∧ Every P i.inner := by
  rw [every_cons]
  exact ⟨fun h => ⟨h.1, h.2.1⟩, fun h => ⟨h.1, h.2, every_nil⟩⟩

theorem Every.cons (hi : Every P [i]) (hxs : Every P xs) : Every P (i :: xs) := by
  show Every P ([i] ++ xs)
  exact every_append.mpr ⟨hi, hxs⟩

end

/-! ## §2. Calls. -/

/-- How many calls a list holds, nested ones included. -/
def callCount (list : List Instr) : Nat :=
  (walkAll list).countP (fun i => i.command == "call")

/-- How many of them may suspend. -/
def asyncCount (list : List Instr) : Nat :=
  (walkAll list).countP (fun i => i.command == "call" && i.async)

theorem callCount_append (xs ys : List Instr) :
    callCount (xs ++ ys) = callCount xs + callCount ys := by
  unfold callCount
  rw [walkAll_append, List.countP_append]

theorem asyncCount_append (xs ys : List Instr) :
    asyncCount (xs ++ ys) = asyncCount xs + asyncCount ys := by
  unfold asyncCount
  rw [walkAll_append, List.countP_append]

/-- An instruction that is no call counts as what it holds. -/
theorem callCount_single {i : Instr} (hi : i.command ≠ "call") :
    callCount [i] = callCount i.inner := by
  unfold callCount
  rw [walkAll_cons, List.countP_cons_of_neg (by simpa using hi)]
  simp [walkAll]

theorem asyncCount_single {i : Instr} (hi : i.command ≠ "call") :
    asyncCount [i] = asyncCount i.inner := by
  unfold asyncCount
  rw [walkAll_cons, List.countP_cons_of_neg (by simp [hi])]
  simp [walkAll]

end Resumable.Program.Instr
