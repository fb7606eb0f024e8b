/-
  Resumable.Proofs.Changes.Totals — what the nodes of a tree have together.

  A walk looks at a tree and everything in it, but not inside what it copies as a whole.  `total f`
  adds up what `f` gives for each node that is looked at.  The total of an expression is its own
  share and that of its operands (`total_parts`), as it is for any node and the nodes below it
  (`total_children`).
-/
import Mathlib.Algebra.BigOperators.Group.Multiset.Basic
import Resumable.Proofs.Walk.Calls

namespace Resumable

namespace Node

/-- The nodes of a tree that a walk looks at, the root first. -/
def analysed (n : Node) : List Node := n.inspect (fun k => !k.isWhole)

/-- A walk over a tree goes no further where it may not enter. -/
theorem inspect_stop {enter : Node → Bool} {n : Node} (hn : n.isAbsent = false)
    (he : enter n = false) : n.inspect enter = [n] := by
  have hstop : ¬ enter n = true := by simp [he]
  cases n with
  | absent => cases hn
  | name _ | num _ | string _ | atom _ | regexp _ _ | breakTo _ | continueTo _ | debugger =>
    simp only [inspect]
  | tryCatch b h f =>
    rcases h with _ | ⟨x, hb⟩ <;> rcases f with _ | fb <;>
      simp only [inspect, if_neg hstop]
  | _ => simp only [inspect, if_neg hstop]

section

variable {α : Type} {f : Node → Multiset α} {n : Node} {ns ms : List Node}

/-- What the nodes have together that a walk over a tree looks at. -/
def total (f : Node → Multiset α) (n : Node) : Multiset α := (n.analysed.map f).sum

/-- What the nodes of a list have together. -/
def totalAll (f : Node → Multiset α) (ns : List Node) : Multiset α := (ns.map (total f)).sum

@[simp] theorem total_absent : total f absent = 0 := rfl

@[simp] theorem totalAll_nil : totalAll f [] = 0 := rfl

@[simp] theorem totalAll_cons : totalAll f (n :: ns) = total f n + totalAll f ns :=
  List.sum_cons

@[simp] theorem totalAll_append : totalAll f (ns ++ ms) = totalAll f ns + totalAll f ms := by
  unfold totalAll
  rw [List.map_append, List.sum_append]

theorem totalAll_present (ns : List Node) : totalAll f (present ns) = totalAll f ns := by
  induction ns with
  | nil => rfl
  | cons n ns ih =>
    rw [totalAll_cons, ← ih]
    cases n with
    | absent =>
      rw [total_absent, zero_add]
      rfl
    | _ => exact totalAll_cons

/-- What is inside a construct that is copied as a whole does not count. -/
theorem total_whole (hw : n.isWhole = true) : total f n = f n := by
  have hn : n.isAbsent = false := by
    cases n with
    | absent => cases hw
    | _ => rfl
  unfold total analysed
  rw [inspect_stop hn (by rw [hw, Bool.not_true]), List.map_singleton, List.sum_singleton]

/-- A node that is looked into counts together with the nodes below it. -/
theorem total_children {l : List Node} (hn : n.isAbsent = false) (hw : n.isWhole = false)
    (hc : n.children = present l) : total f n = f n + totalAll f l := by
  -- a walk over nodes side by side is one over each
  have hflat : ∀ ms : List Node,
      ((ms.flatMap (inspect fun k => !k.isWhole)).map f).sum = totalAll f ms := by
    intro ms
    induction ms with
    | nil => rfl
    | cons m ms ih =>
      rw [List.flatMap_cons, List.map_append, List.sum_append, ih, totalAll_cons]
      rfl
  rw [total, analysed, inspect_eq _ hn (by rw [hw, Bool.not_false]), List.map_cons, List.sum_cons,
    hflat, hc, totalAll_present]

/-- A node without operands counts by itself. -/
theorem total_leaf (hn : n.isAbsent = false) (hc : n.children = []) : total f n = f n := by
  cases hw : n.isWhole with
  | true => exact total_whole hw
  | false => rw [total_children hn hw (l := []) hc, totalAll_nil, add_zero]

end

end Node

namespace Program.Walk

open Node (total totalAll totalAll_cons totalAll_append total_children)

section

variable {α : Type} {f : Node → Multiset α} {n : Node}

/-! ## §1. Operands. -/

/-- What is assigned to has no share of its own. -/
def Targetless (f : Node → Multiset α) : Prop := ∀ t, isTarget t = true → f t = 0

theorem total_place (hf : Targetless f) {t : Node} (ht : isTarget t = true) :
    total f t = totalAll f (placeParts t) := by
  cases t with
  | name x => exact (Node.total_leaf rfl rfl).trans (hf _ rfl)
  | dot b g => rw [total_children rfl rfl (l := [b]) rfl, hf _ rfl, zero_add, placeParts]
  | sub b i => rw [total_children rfl rfl (l := [b, i]) rfl, hf _ rfl, zero_add, placeParts]
  | _ => cases ht

theorem total_callee (hf : Targetless f) (c : Node) :
    total f c = totalAll f (calleeParts c) := by
  unfold calleeParts
  split
  · next hc => exact total_place hf (isTarget_of_isMember hc)
  · rw [totalAll_cons, Node.totalAll_nil, add_zero]

theorem total_operand (hf : Targetless f) (op : String) (e : Node) :
    total f e = totalAll f (operandParts op e) := by
  unfold operandParts
  split
  · next he => exact total_place hf (Bool.and_eq_true_iff.mp he).2
  · rw [totalAll_cons, Node.totalAll_nil, add_zero]

/-- An expression that is walked through counts together with its operands. -/
theorem total_parts (hf : Targetless f)
    (h : form n = .combined ∨ form n = .assigned ∨ form n = .called) :
    total f n = f n + totalAll f (parts n) := by
  cases n with
  | call c args =>
    rw [total_children rfl rfl rfl, totalAll_cons, total_callee hf c, parts, totalAll_append]
  | unary side op e =>
    rw [total_children rfl rfl (l := [e]) rfl, totalAll_cons, Node.totalAll_nil, add_zero,
      total_operand hf op e, parts]
  | assign op t v =>
    rw [total_children rfl rfl (l := [t, v]) rfl, totalAll_cons,
      total_place hf (isTarget_of_form h), parts, totalAll_append]
  | new c args | array es | object ps => exact total_children rfl rfl rfl
  | binary op l r => exact total_children rfl rfl (l := [l, r]) rfl
  | sub b i => exact total_children rfl rfl (l := [b, i]) rfl
  | dot b g => exact total_children rfl rfl (l := [b]) rfl
  | _ => rcases h with h | h | h <;> cases h

/-- So does any expression that is walked: one without operands counts by itself. -/
theorem total_walked (hf : Targetless f) (h : form n ≠ .misplaced) :
    total f n = f n + totalAll f (parts n) := by
  have hnone : parts n = [] → total f n = f n → total f n = f n + totalAll f (parts n) := by
    intro hp ht
    rw [hp, Node.totalAll_nil, add_zero, ht]
  cases hform : form n with
  | combined => exact total_parts hf (.inl hform)
  | assigned => exact total_parts hf (.inr (.inl hform))
  | called => exact total_parts hf (.inr (.inr hform))
  | misplaced => exact absurd hform h
  | reference | literal | copied =>
    cases n with
    | name _ | num _ | string _ | atom _ | regexp _ _ => exact hnone rfl (Node.total_leaf rfl rfl)
    | conditional _ _ _ | seq _ | function _ _ _ => exact hnone rfl (Node.total_whole rfl)
    | assign op t v => rcases form_assign op t v with ha | ha <;> cases ha.symm.trans hform
    | _ => cases hform

/-! ## §2. Expressions with the values of their operands. -/

variable {σ : Scope} {t : Node} {vs : List Node}

theorem total_name (hf : Targetless f) (x : String) : total f (.name x) = 0 :=
  (Node.total_leaf rfl rfl).trans (hf _ rfl)

theorem total_resolve (hf : Targetless f) (x : String) : total f (σ.resolve x) = 0 := by
  unfold Scope.resolve Scope.field
  split
  · rw [total_place hf rfl, placeParts, totalAll_cons, Node.totalAll_nil, total_name hf, add_zero]
  · exact total_name hf x

theorem total_placeFrom (hf : Targetless f) (ht : isTarget t = true)
    (hlen : (placeParts t).length ≤ vs.length) :
    total f (placeFrom σ t vs) = totalAll f (vs.take (placeParts t).length) := by
  cases t with
  | name x => exact total_resolve hf x
  | dot b g =>
    rcases vs with _ | ⟨v, vs⟩
    · simp [placeParts] at hlen
    · exact total_place hf (t := .dot v g) rfl
  | sub b i =>
    rcases vs with _ | ⟨v, _ | ⟨w, vs⟩⟩
    · simp [placeParts] at hlen
    · simp [placeParts] at hlen
    · exact total_place hf (t := .sub v w) rfl
  | _ => cases ht

theorem total_calleeFrom (hf : Targetless f) {c : Node}
    (hlen : (calleeParts c).length ≤ vs.length) :
    total f (calleeFrom σ c vs) = totalAll f (vs.take (calleeParts c).length) := by
  unfold calleeFrom calleeParts at *
  split
  · next hc =>
    rw [if_pos hc] at hlen
    exact total_placeFrom hf (isTarget_of_isMember hc) hlen
  · next hc =>
    rw [if_neg hc] at hlen
    match vs with
    | [] => simp at hlen
    | v :: _ => simp

theorem total_operandFrom (hf : Targetless f) {op : String} {e : Node}
    (hlen : vs.length = (operandParts op e).length) :
    total f (operandFrom σ op e vs) = totalAll f vs := by
  unfold operandFrom operandParts at *
  split
  · next he =>
    rw [if_pos he] at hlen
    rw [total_placeFrom hf (Bool.and_eq_true_iff.mp he).2 (by omega), ← hlen, List.take_length]
  · next he =>
    rw [if_neg he] at hlen
    match vs with
    | [v] => simp

theorem totalAll_take_drop (k : Nat) (vs : List Node) :
    totalAll f (vs.take k) + totalAll f (vs.drop k) = totalAll f vs := by
  rw [← totalAll_append, List.take_append_drop]

/-- An expression put together from values counts together with them. -/
theorem total_assemble (hf : Targetless f)
    (h : form n = .combined ∨ form n = .assigned ∨ form n = .called)
    (hlen : vs.length = (parts n).length) :
    total f (assemble σ n vs) = f (assemble σ n vs) + totalAll f vs := by
  cases n with
  | call c args =>
    rw [parts, List.length_append] at hlen
    rw [assemble, total_children rfl rfl rfl, totalAll_cons, total_calleeFrom hf (by omega),
      totalAll_take_drop]
  | unary side op e =>
    rw [assemble, total_children rfl rfl (l := [operandFrom σ op e vs]) rfl, totalAll_cons,
      Node.totalAll_nil, add_zero, total_operandFrom hf hlen]
  | assign op t v =>
    have ht := isTarget_of_form h
    rw [parts, List.length_append, List.length_singleton] at hlen
    -- what is left behind the operands of the target is the value alone
    obtain ⟨w, hw⟩ : ∃ w, vs.drop (placeParts t).length = [w] := by
      rw [← List.length_eq_one_iff, List.length_drop]
      omega
    have hsplit := totalAll_take_drop (f := f) (placeParts t).length vs
    rw [hw] at hsplit
    rw [assemble, hw, List.headD_cons, total_children rfl rfl (l := [placeFrom σ t vs, w]) rfl,
      totalAll_cons, total_placeFrom hf ht (by omega), hsplit]
  | array es => exact total_children rfl rfl rfl
  | object ps =>
    rw [parts, List.length_map] at hlen
    -- the values take the keys of the source, one each
    have hsnd : ((ps.map (·.1)).zip vs).map (·.2) = vs := List.map_snd_zip (by simp [hlen])
    rw [assemble, total_children rfl rfl rfl, hsnd]
  | new c args =>
    match vs with
    | [] => simp [parts] at hlen
    | _ :: _ => exact total_children rfl rfl rfl
  | dot b g =>
    match vs with
    | [] | _ :: _ :: _ => simp [parts] at hlen
    | [v] => exact total_children rfl rfl (l := [v]) rfl
  | binary op l r | sub b i =>
    match vs with
    | [] | [_] | _ :: _ :: _ :: _ => simp [parts] at hlen
    | [v, w] => exact total_children rfl rfl (l := [v, w]) rfl
  | _ => rcases h with h | h | h <;> cases h

end

end Program.Walk

end Resumable
