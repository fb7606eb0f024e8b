/-
  Resumable.Proofs.Marks.Instructions — programs that differ in the marks of their calls.

  The mark of a call says that it may suspend.  `unmarked` takes the marks of calls away and leaves
  everything else; two instructions are `Alike` if they are the same without them, and the marks
  of the one stand in a given relation to those of the other, place by place.

  Nothing that is made from a program looks at marks, apart from its code:
    * `rebuildAll_unmarked`   — the tree of a program is that of the program without marks;
    * `serializeAll_unmarked` — its code without marks is the code of the program without marks.
-/
import Mathlib.Data.List.Forall2
import Resumable.Program.Compile
import Resumable.Proofs.Code.Figures

namespace Resumable

/-! ## §1. Without marks. -/

namespace Program.Instr

mutual

/-- An instruction with no call in it marked. -/
def unmarked : Instr → Instr
  | leaf command code async => leaf command code (async && command != "call")
  | branch cond yes no hasElse shape yesTemp noTemp =>
      branch cond (unmarkedAll yes) (unmarkedAll no) hasElse shape yesTemp noTemp
  | loop cond test step body condSplit stepExpr =>
      loop cond (unmarkedAll test) (unmarkedAll step) (unmarkedAll body) condSplit stepExpr
  | defun name params body => defun name params (unmarkedAll body)

/-- Instructions with no call in them marked. -/
def unmarkedAll : List Instr → List Instr
  | [] => []
  | i :: rest => unmarked i :: unmarkedAll rest

end

/-- The marks that a walk over a list meets; what is no call has one as well. -/
def marks (list : List Instr) : List Bool := (walkAll list).map async

theorem marks_cons (i : Instr) (rest : List Instr) :
    marks (i :: rest) = i.async :: (marks i.inner ++ marks rest) := by
  unfold marks
  rw [walkAll_cons, List.map_cons, List.map_append]

theorem marks_append (xs ys : List Instr) : marks (xs ++ ys) = marks xs ++ marks ys := by
  unfold marks
  rw [walkAll_append, List.map_append]

end Program.Instr

namespace Op

mutual

/-- An instruction of executable code with no call in it marked. -/
def unmarked : Op → Op
  | leaf command code async => leaf command code (async && command != "call")
  | branch cond yes no async => branch cond (unmarkedAll yes) (unmarkedAll no) async
  | loop cond step body async =>
      loop (unmarkedAll cond) (unmarkedAll step) (unmarkedAll body) async
  | defun name args code async => defun name args (unmarkedAll code) async

/-- Executable code with no call in it marked. -/
def unmarkedAll : List Op → List Op
  | [] => []
  | o :: rest => unmarked o :: unmarkedAll rest

end

end Op

namespace Program

open Instr (unmarked unmarkedAll marks marks_cons marks_append)

/-! ## §2. What is made from a program. -/

mutual

/-- The statement that stands for an instruction does not depend on marks. -/
theorem rebuild_unmarked (i : Instr) : rebuild i.unmarked = rebuild i := by
  cases i with
  | leaf command code async => rw [unmarked, rebuild, rebuild]
  | branch cond yes no hasElse shape yesTemp noTemp =>
    rw [unmarked, rebuild, rebuild, rebuildAll_unmarked yes, rebuildAll_unmarked no]
  | loop cond test step body condSplit stepExpr =>
    rw [unmarked, rebuild, rebuild, rebuildAll_unmarked test, rebuildAll_unmarked step,
      rebuildAll_unmarked body]
  | defun name params body =>
    rw [unmarked, rebuild, rebuild, rebuildAll_unmarked body]

/-- The tree of a program does not depend on marks. -/
theorem rebuildAll_unmarked (list : List Instr) :
    rebuildAll (unmarkedAll list) = rebuildAll list := by
  cases list with
  | nil => rw [unmarkedAll]
  | cons i rest =>
    rw [unmarkedAll, rebuildAll, rebuildAll, rebuild_unmarked i, rebuildAll_unmarked rest]

end

mutual

/-- A walk over an instruction meets as many as without marks. -/
theorem length_walk_unmarked (i : Instr) : i.unmarked.walk.length = i.walk.length := by
  cases i with
  | leaf command code async => rw [unmarked, Instr.walk, Instr.walk]; rfl
  | branch cond yes no hasElse shape yesTemp noTemp =>
    rw [unmarked, Instr.walk, Instr.walk, List.length_cons, List.length_cons, List.length_append,
      List.length_append, length_walkAll_unmarked yes, length_walkAll_unmarked no]
  | loop cond test step body condSplit stepExpr =>
    rw [unmarked, Instr.walk, Instr.walk]
    simp only [List.length_cons, List.length_append, length_walkAll_unmarked]
  | defun name params body =>
    rw [unmarked, Instr.walk, Instr.walk, List.length_cons, List.length_cons,
      length_walkAll_unmarked body]

/-- A walk over a list meets as many instructions as without marks. -/
theorem length_walkAll_unmarked (list : List Instr) :
    (Instr.walkAll (unmarkedAll list)).length = (Instr.walkAll list).length := by
  cases list with
  | nil => rw [unmarkedAll]
  | cons i rest =>
    rw [unmarkedAll, Instr.walkAll, Instr.walkAll, List.length_append, List.length_append,
      length_walk_unmarked i, length_walkAll_unmarked rest]

end

section

variable (render : Renderer)

mutual

/-- An instruction without marks is serialized to its code without marks, or fails alike. -/
theorem serialize_unmarked (path : List String) (i : Instr) :
    serialize render path i.unmarked = (serialize render path i).map Op.unmarked := by
  -- a payload does not know of marks, so only the lists inside an instruction matter
  cases i with
  | leaf command code async =>
    rw [unmarked, serialize, serialize]
    cases payload render path code with
    | error e => rfl
    | ok text => rfl
  | branch cond yes no hasElse shape yesTemp noTemp =>
    rw [unmarked, serialize, serialize, serializeAll_unmarked (path ++ ["then"]) 0 yes,
      serializeAll_unmarked (path ++ ["else"]) 0 no]
    cases payload render path cond with
    | error e => rfl
    | ok text =>
      cases serializeAll render (path ++ ["then"]) 0 yes with
      | error e => rfl
      | ok yes' => cases serializeAll render (path ++ ["else"]) 0 no <;> rfl
  | loop cond test step body condSplit stepExpr =>
    rw [unmarked, serialize, serialize, serializeAll_unmarked (path ++ ["cond"]) 0 test,
      serializeAll_unmarked (path ++ ["step"]) 0 step,
      serializeAll_unmarked (path ++ ["body"]) 0 body]
    cases serializeAll render (path ++ ["cond"]) 0 test with
    | error e => rfl
    | ok test' =>
      cases serializeAll render (path ++ ["step"]) 0 step with
      | error e => rfl
      | ok step' => cases serializeAll render (path ++ ["body"]) 0 body <;> rfl
  | defun name params body =>
    rw [unmarked, serialize, serialize, serializeAll_unmarked (path ++ [name]) 0 body]
    cases serializeAll render (path ++ [name]) 0 body <;> rfl

/-- A list without marks is serialized to its code without marks, or fails alike. -/
theorem serializeAll_unmarked (path : List String) (k : Nat) (list : List Instr) :
    serializeAll render path k (unmarkedAll list) =
      (serializeAll render path k list).map Op.unmarkedAll := by
  cases list with
  | nil => rw [unmarkedAll, serializeAll]; rfl
  | cons i rest =>
    rw [unmarkedAll, serializeAll, serializeAll, serialize_unmarked (path ++ [toString k]) i,
      serializeAll_unmarked path (k + 1) rest]
    cases serialize render (path ++ [toString k]) i with
    | error e => rfl
    | ok op => cases serializeAll render path (k + 1) rest <;> rfl

end

end

/-! ## §3. Alike instructions. -/

/-- Instructions that are the same without marks, and whose marks are related place by place. -/
structure Instr.Alike (R : Bool → Bool → Prop) (i j : Instr) : Prop where
  same : i.unmarked = j.unmarked
  marked : List.Forall₂ R (marks [i]) (marks [j])

/-- Lists of instructions that are alike one by one. -/
def AllAlike (R : Bool → Bool → Prop) (xs ys : List Instr) : Prop :=
  List.Forall₂ (Instr.Alike R) xs ys

section

variable {R : Bool → Bool → Prop} {xs ys xs' ys' : List Instr} {a b : Bool}

theorem AllAlike.same (h : AllAlike R xs ys) : unmarkedAll xs = unmarkedAll ys := by
  induction h with
  | nil => rfl
  | cons head _ ih => rw [unmarkedAll, unmarkedAll, head.same, ih]

theorem AllAlike.marked (h : AllAlike R xs ys) : List.Forall₂ R (marks xs) (marks ys) := by
  induction h with
  | nil => exact .nil
  | @cons i j is js head _ ih =>
    have hi : marks (i :: is) = marks [i] ++ marks is := marks_append [i] is
    have hj : marks (j :: js) = marks [j] ++ marks js := marks_append [j] js
    rw [hi, hj]
    exact List.rel_append head.marked ih

/-- Two calls of the same node, marked in related ways. -/
theorem Instr.Alike.call (code : Node) (h : R a b) :
    Alike R (.leaf "call" code a) (.leaf "call" code b) := by
  refine ⟨?_, ?_⟩
  · rw [unmarked, unmarked]
    simp
  · exact .cons h .nil

section

variable (hR : ∀ c, R c c)

include hR

/-- A leaf is like itself. -/
theorem Instr.Alike.leaf (command : String) (code : Node) (async : Bool) :
    Alike R (.leaf command code async) (.leaf command code async) :=
  ⟨rfl, .cons (hR async) .nil⟩

/-- An instruction that holds other lists, and is unmarked itself, is alike if they are. -/
theorem Instr.Alike.hold {i j : Instr} (same : i.unmarked = j.unmarked)
    (hi : i.async = false) (hj : j.async = false) (inner : AllAlike R i.inner j.inner) :
    Alike R i j := by
  refine ⟨same, ?_⟩
  rw [marks_cons, marks_cons, hi, hj]
  exact .cons (hR false) (List.rel_append inner.marked .nil)

theorem Instr.Alike.branch (cond : Node) (hasElse : Bool) (shape : Shape)
    (yesTemp noTemp : Option String) (yes : AllAlike R xs ys) (no : AllAlike R xs' ys') :
    Alike R (.branch cond xs xs' hasElse shape yesTemp noTemp)
      (.branch cond ys ys' hasElse shape yesTemp noTemp) := by
  refine .hold hR ?_ rfl rfl (List.rel_append yes no)
  rw [unmarked, unmarked, yes.same, no.same]

theorem Instr.Alike.loop {xs'' ys'' : List Instr} (cond stepExpr : Node) (condSplit : Bool)
    (test : AllAlike R xs ys) (step : AllAlike R xs' ys') (body : AllAlike R xs'' ys'') :
    Alike R (.loop cond xs xs' xs'' condSplit stepExpr)
      (.loop cond ys ys' ys'' condSplit stepExpr) := by
  refine .hold hR ?_ rfl rfl (List.rel_append (List.rel_append test step) body)
  rw [unmarked, unmarked, test.same, step.same, body.same]

theorem Instr.Alike.defun (name : String) (params : List String) (body : AllAlike R xs ys) :
    Alike R (.defun name params xs) (.defun name params ys) := by
  refine .hold hR ?_ rfl rfl body
  rw [unmarked, unmarked, body.same]

end

/-- Programs that are alike have the same tree. -/
theorem AllAlike.rebuildAll_eq (h : AllAlike R xs ys) : rebuildAll xs = rebuildAll ys := by
  rw [← rebuildAll_unmarked xs, h.same, rebuildAll_unmarked]

/-- Programs that are alike have as many instructions. -/
theorem AllAlike.count_eq (h : AllAlike R xs ys) : Instr.count xs = Instr.count ys := by
  unfold Instr.count
  rw [← length_walkAll_unmarked xs, h.same, length_walkAll_unmarked]

end

end Program

end Resumable
