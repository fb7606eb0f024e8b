/-
  Resumable.Proofs.Changes.Residue — changes, and what is left of them in a value.

  The changes of a tree are its assignments, `++`, `--` and `delete`.  A walk emits those of an
  expression that it splits, and gives a value that is read behind them.  That value is a temp,
  which changes nothing, unless the expression is an assignment: then it is what was assigned to,
  and an operand of it that was not split makes its changes once more (`residue`).

  `repeats` is what is made once more if the value is used.  The `pieces` of a statement are its
  expressions, each with what becomes of its value.
-/
import Resumable.Proofs.Changes.Totals
import Resumable.Proofs.Walk.Order

namespace Resumable

namespace Node

open Program.Walk (mutates placeParts Targetless)

/-! ## §1. Changes. -/

/-- Whether a node is an assignment, `++`, `--` or `delete`. -/
def isChange : Node → Bool
  | assign _ _ _ => true
  | unary _ op _ => mutates op
  | _ => false

/-- The node itself if it is a change. -/
def change (n : Node) : Multiset Node := if n.isChange then {n} else 0

/-- The changes of a tree, apart from those inside a construct that is copied as a whole. -/
def changes (n : Node) : Multiset Node := total change n

/-- The changes of the nodes of a list. -/
def changesAll (ns : List Node) : Multiset Node := totalAll change ns

theorem change_of_not {n : Node} (h : n.isChange = false) : n.change = 0 := by
  unfold change
  rw [h]
  rfl

theorem change_targetless : Targetless change := by
  intro t ht
  cases t <;> cases ht <;> rfl

@[simp] theorem changesAll_nil : changesAll [] = 0 := rfl

@[simp] theorem changesAll_cons (n : Node) (ns : List Node) :
    changesAll (n :: ns) = n.changes + changesAll ns := totalAll_cons

theorem changesAll_one (n : Node) : changesAll [n] = n.changes := by
  rw [changesAll_cons, changesAll_nil, add_zero]

/-- A node that is no change has those of the nodes in it. -/
theorem changes_children {n : Node} {l : List Node} (hn : n.isAbsent = false)
    (hw : n.isWhole = false) (h : n.isChange = false) (hc : n.children = present l) :
    n.changes = changesAll l := by
  unfold changes changesAll
  rw [total_children hn hw hc, change_of_not h, zero_add]

theorem changes_whole {n : Node} (hw : n.isWhole = true) : n.changes = 0 := by
  unfold changes
  rw [total_whole hw]
  cases n <;> cases hw <;> rfl

theorem changes_name (x : String) : (name x).changes = 0 :=
  Program.Walk.total_name change_targetless x

/-! ## §2. What is left in a value. -/

/-- The changes that the value of an expression makes when it is read: all of them if nothing in it
    is split, those of what is assigned to if it is an assignment, and none otherwise. -/
def residue : Node → Multiset Node
  | n@(assign _ (dot b _) _) => if n.hasCall then residue b else n.changes
  | n@(assign _ (sub b i) _) => if n.hasCall then residue b + residue i else n.changes
  | n => if n.hasCall then 0 else n.changes

/-- The changes that are made once more if the value of an expression is used. -/
def repeats (n : Node) : Multiset Node := if n.hasCall then n.residue else 0

variable {n : Node}

theorem residue_of_not_hasCall (h : n.hasCall = false) : n.residue = n.changes := by
  unfold residue
  split <;> rw [h] <;> rfl

theorem residue_assign {op : String} {t v : Node} (h : (assign op t v).hasCall = true) :
    (assign op t v).residue = ((placeParts t).map residue).sum := by
  cases t with
  | dot b f =>
    rw [residue, if_pos h]
    exact (add_zero _).symm
  | sub b i =>
    rw [residue, if_pos h]
    show _ = residue b + (residue i + 0)
    rw [add_zero]
  | _ => exact if_pos h

/-- A split expression other than an assignment is read from a temp. -/
theorem residue_of_split (hc : n.hasCall = true)
    (h : Program.Walk.form n = .combined ∨ Program.Walk.form n = .called) : n.residue = 0 := by
  cases n with
  | assign op t v =>
    rcases Program.Walk.form_assign op t v with ha | ha <;> rw [ha] at h <;> simp at h
  | _ =>
    rw [residue, if_pos hc]
    all_goals nofun

theorem repeats_of_hasCall (h : n.hasCall = true) : n.repeats = n.residue := if_pos h

theorem repeats_of_not_hasCall (h : n.hasCall = false) : n.repeats = 0 := by
  unfold repeats
  rw [h]
  rfl

theorem repeats_targetless : Targetless repeats := by
  intro t ht
  cases hc : t.hasCall with
  | false => exact repeats_of_not_hasCall hc
  | true =>
    rw [repeats_of_hasCall hc]
    cases t with
    | name x => cases hc
    | dot b f | sub b i => exact residue_of_split hc (.inl rfl)
    | _ => cases ht

end Node

/-! ## §3. The expressions of a statement. -/

/-- An expression of a statement and what becomes of its value. -/
inductive Piece where
  /-- The value is not used. -/
  | effect (e : Node)
  /-- The value is used. -/
  | value (e : Node)
  /-- The value, if there is one, is bound to a name. -/
  | binding (x : String) (init : Node)

namespace Piece

/-- The changes of a piece that are made once more: those of its operands, and of itself if its
    value is used. -/
def repeats : Piece → Multiset Node
  | effect e => Node.totalAll Node.repeats (Program.Walk.parts e)
  | value e => Node.total Node.repeats e
  | binding _ init => Node.total Node.repeats init

/-- The fields of a container that a piece sets: that of the name it binds, once more in front of a
    value that is split. -/
def fields (container : String) : Piece → Multiset Node
  | binding x init =>
      if init.hasCall then {.dot (.name container) x, .dot (.name container) x}
      else {.dot (.name container) x}
  | _ => 0

/-- The changes of pieces that are made once more. -/
def repeatsAll (ps : List Piece) : Multiset Node := (ps.map repeats).sum

/-- The fields of a container that pieces set. -/
def fieldsAll (container : String) (ps : List Piece) : Multiset Node :=
  (ps.map (fields container)).sum

@[simp] theorem repeatsAll_append (ps qs : List Piece) :
    repeatsAll (ps ++ qs) = repeatsAll ps + repeatsAll qs := by
  unfold repeatsAll
  rw [List.map_append, List.sum_append]

@[simp] theorem fieldsAll_append (c : String) (ps qs : List Piece) :
    fieldsAll c (ps ++ qs) = fieldsAll c ps + fieldsAll c qs := by
  unfold fieldsAll
  rw [List.map_append, List.sum_append]

@[simp] theorem repeatsAll_cons (p : Piece) (ps : List Piece) :
    repeatsAll (p :: ps) = p.repeats + repeatsAll ps := List.sum_cons

@[simp] theorem fieldsAll_cons (c : String) (p : Piece) (ps : List Piece) :
    fieldsAll c (p :: ps) = p.fields c + fieldsAll c ps := List.sum_cons

@[simp] theorem repeatsAll_nil : repeatsAll [] = 0 := rfl

@[simp] theorem fieldsAll_nil (c : String) : fieldsAll c [] = 0 := rfl

end Piece

namespace Node

/-- The bindings of a `var` as pieces. -/
def bindingPieces (ds : List (String × Node)) : List Piece := ds.map fun d => .binding d.1 d.2

mutual

/-- The pieces of a statement, in the order in which they are walked. -/
def pieces : Node → List Piece
  | stat e => [.effect e]
  | var ds => bindingPieces ds
  | block b => piecesAll b
  | splice ns => piecesAll ns
  | ifElse c y n => .value c :: (pieces y ++ pieces n)
  | forLoop i c s b => pieces i ++ .value c :: .effect s :: pieces b
  | defun _ _ b => piecesAll b
  | n => if n.isExpression then [.effect n] else []

/-- The pieces of the statements of a list. -/
def piecesAll : List Node → List Piece
  | [] => []
  | n :: rest => pieces n ++ piecesAll rest

end

end Node

end Resumable
