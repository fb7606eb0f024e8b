/-
  Resumable.Proofs.Tree.Replacement — a walk that replaces and a walk that reads.

  Replacing and inspecting go through a tree by case analyses of their own, in orders that differ
  in places.  Both are read here as what they do at one node, by its operands (`replace_eq`,
  `logs_node`); from that follows, by recursion over the tree, that they visit the same nodes.
  Main statement: `replace_agrees_with_inspect`.
-/
import Resumable.Tree.Replace
import Resumable.Proofs.Tree.Operands

namespace Resumable.Node

section

variable (step : Node → Option Node)

/-! ## §1. What replacing leaves of a node. -/

@[simp] theorem replace_absent : absent.replace step = absent := by
  simp [replace, replaceM]

theorem replaceAllM_id (ns : List Node) :
    replaceAllM (m := Id) (fun k => pure (step k)) ns = pure (ns.map (replace step)) := by
  induction ns with
  | nil => rw [replaceAllM, List.map_nil]
  | cons n ns ih =>
    rw [replaceAllM, ih]
    rfl

theorem replaceFieldsM_id (ps : List (String × Node)) :
    replaceFieldsM (m := Id) (fun k => pure (step k)) ps =
      pure (ps.map (fun p => (p.1, p.2.replace step))) := by
  induction ps with
  | nil => rw [replaceFieldsM, List.map_nil]
  | cons p ps ih =>
    rw [replaceFieldsM, ih]
    rfl

theorem replaceCasesM_id (cs : List (Node × List Node)) :
    replaceCasesM (m := Id) (fun k => pure (step k)) cs =
      pure (cs.map (fun c => (c.1.replace step, c.2.map (replace step)))) := by
  induction cs with
  | nil => rw [replaceCasesM, List.map_nil]
  | cons c cs ih =>
    rw [replaceCasesM, ih, replaceAllM_id]
    rfl

theorem replaceHandlerM_id (h : Option (String × List Node)) :
    replaceHandlerM (m := Id) (fun k => pure (step k)) h =
      pure (h.map (fun c => (c.1, c.2.map (replace step)))) := by
  cases h with
  | none => rw [replaceHandlerM, Option.map_none]
  | some c =>
    rw [replaceHandlerM, replaceAllM_id]
    rfl

theorem replaceFinalizerM_id (f : Option (List Node)) :
    replaceFinalizerM (m := Id) (fun k => pure (step k)) f =
      pure (f.map (fun b => b.map (replace step))) := by
  cases f with
  | none => rw [replaceFinalizerM, Option.map_none]
  | some b =>
    rw [replaceFinalizerM, replaceAllM_id]
    rfl

/-- A node is replaced as a whole, or else each of its operands is. -/
theorem replace_eq {n : Node} (hn : n.isAbsent = false) :
    n.replace step = (step n).getD (n.mapOperands (replace step)) := by
  cases n with
  | absent => cases hn
  | _ =>
    unfold replace
    rw [replaceM]
    simp only [replaceAllM_id, replaceFieldsM_id, replaceCasesM_id, replaceHandlerM_id,
      replaceFinalizerM_id, pure_bind]
    cases step _ <;> rfl

/-- A node that the step leaves is rebuilt from its replaced operands. -/
theorem replace_rebuilt {n : Node} (hs : (step n).isNone = true) :
    n.RebuiltBy (replace step) (n.replace step) := by
  cases hn : n.isAbsent with
  | false =>
    rw [replace_eq step hn, Option.isNone_iff_eq_none.mp hs]
    exact mapOperands_rebuilt _ n
  | true =>
    rw [isAbsent_eq_true_iff.mp hn, replace_absent]
    exact ⟨rfl, rfl, rfl⟩

/-! ## §2. The visits. -/

/-- The computation gives `a` and appends the nodes of `ns` to the log, in some order. -/
def Logs {α : Type} (x : StateM (List Node) α) (a : α) (ns : List Node) : Prop :=
  ∀ log, ∃ l, x.run log = (a, log ++ l) ∧ l.Perm ns

theorem Logs.pure {α : Type} (a : α) : Logs (Pure.pure a) a [] :=
  fun log => ⟨[], by rw [List.append_nil]; rfl, .refl _⟩

theorem Logs.bind {α β : Type} {x : StateM (List Node) α} {f : α → StateM (List Node) β} {a : α}
    {b : β} {ns ms : List Node} (hx : Logs x a ns) (hf : Logs (f a) b ms) :
    Logs (x >>= f) b (ns ++ ms) := by
  intro log
  obtain ⟨l, hl, hlp⟩ := hx log
  obtain ⟨l', hl', hlp'⟩ := hf (log ++ l)
  refine ⟨l ++ l', ?_, hlp.append hlp'⟩
  rw [StateT.run_bind, hl]
  show (f a).run (log ++ l) = _
  rw [hl', List.append_assoc]

section

variable {α β γ δ ε : Type} {x : StateM (List Node) α} {y : StateM (List Node) β}
  {z : StateM (List Node) γ} {w : StateM (List Node) δ} {a : α} {b : β} {c : γ} {d : δ}
  {ns ms ks js : List Node}

theorem Logs.map (f : α → ε) (hx : Logs x a ns) : Logs (do return f (← x)) (f a) ns :=
  List.append_nil ns ▸ hx.bind (.pure (f a))

theorem Logs.map₂ (f : α → β → ε) (hx : Logs x a ns) (hy : Logs y b ms) :
    Logs (do return f (← x) (← y)) (f a b) (ns ++ ms) :=
  hx.bind (hy.map (f a))

theorem Logs.map₃ (f : α → β → γ → ε) (hx : Logs x a ns) (hy : Logs y b ms) (hz : Logs z c ks) :
    Logs (do return f (← x) (← y) (← z)) (f a b c) (ns ++ (ms ++ ks)) :=
  hx.bind (hy.map₂ (f a) hz)

theorem Logs.map₄ (f : α → β → γ → δ → ε) (hx : Logs x a ns) (hy : Logs y b ms)
    (hz : Logs z c ks) (hw : Logs w d js) :
    Logs (do return f (← x) (← y) (← z) (← w)) (f a b c d) (ns ++ (ms ++ (ks ++ js))) :=
  hx.bind (hy.map₃ (f a) hz hw)

end

theorem Logs.perm {α : Type} {x : StateM (List Node) α} {a : α} {ns ms : List Node}
    (hx : Logs x a ns) (h : ns.Perm ms) : Logs x a ms := by
  intro log
  obtain ⟨l, hl, hp⟩ := hx log
  exact ⟨l, hl, hp.trans h⟩

/-- The step, writing down what it is called on. -/
def noting (k : Node) : StateM (List Node) (Option Node) := do
  modify (· ++ [k])
  return step k

theorem noting_logs (k : Node) : Logs (noting step k) (step k) [k] :=
  fun _ => ⟨[k], rfl, .refl _⟩

/-- The nodes a reading walk visits that goes below a node exactly if the step leaves it. -/
abbrev visited (n : Node) : List Node := n.inspect (fun k => (step k).isNone)

theorem visited_absent : visited step absent = [] := by
  rw [visited, inspect]

theorem visited_eq {n : Node} (hn : n.isAbsent = false) (hs : step n = none) :
    visited step n = n :: (n.operands.map (·.2)).flatMap (visited step) := by
  rw [visited, inspect_eq_operands _ hn (by rw [hs]; rfl)]

theorem visited_replaced {n r : Node} (hn : n.isAbsent = false) (hs : step n = some r) :
    visited step n = [n] :=
  inspect_eq_singleton _ hn (by rw [hs]; rfl)

/-- A node without operands. -/
theorem logs_leaf {n : Node} (hn : n.isAbsent = false) (hops : n.operands = [])
    (hmap : n.mapOperands (replace step) = n)
    (hrun : n.replaceM (noting step) = do return (← noting step n).getD n) :
    Logs (n.replaceM (noting step)) (n.replace step) (visited step n) := by
  have hv : visited step n = [n] := by
    cases hs : step n with
    | some r => exact visited_replaced step hn hs
    | none => rw [visited_eq step hn hs, hops, List.map_nil, List.flatMap_nil]
  rw [hrun, hv, replace_eq step hn, hmap]
  exact .map (fun r => r.getD n) (noting_logs step n)

/-- One node: the step is called on it, and unless that replaces it, the operands are visited in
    the order of `rest`. -/
theorem logs_node {n : Node} (hn : n.isAbsent = false) {rest : StateM (List Node) Node}
    {ns : List Node}
    (hrun : n.replaceM (noting step) = noting step n >>= fun r =>
      match r with
      | some r => Pure.pure r
      | none => rest)
    (hrest : Logs rest (n.mapOperands (replace step)) ns)
    (hperm : ns.Perm ((n.operands.map (·.2)).flatMap (visited step))) :
    Logs (n.replaceM (noting step)) (n.replace step) (visited step n) := by
  rw [hrun, replace_eq step hn]
  have hstep := noting_logs step n
  cases hs : step n with
  | some r =>
    rw [hs] at hstep
    rw [visited_replaced step hn hs]
    exact hstep.bind (.pure r)
  | none =>
    rw [hs] at hstep
    rw [visited_eq step hn hs]
    exact hstep.bind (hrest.perm hperm)

mutual

/-- Replacing calls the step on the nodes that the reading walk visits.  The order differs in do
    loops, switch and try statements. -/
theorem replaceM_logs : ∀ n : Node,
    Logs (n.replaceM (noting step)) (n.replace step) (visited step n)
  | absent => by
    rw [replaceM, replace_absent, visited_absent]
    exact .pure _
  | name _ | num _ | string _ | atom _ | regexp _ _ | breakTo _ | continueTo _ | debugger =>
    logs_leaf step rfl rfl rfl (replaceM.eq_def _ _)
  | array es =>
    logs_node step rfl (replaceM.eq_def _ _) (.map array (replaceAllM_logs es))
      (by simp [operands])
  | object ps =>
    logs_node step rfl (replaceM.eq_def _ _) (.map object (replaceFieldsM_logs ps))
      (by simp [operands])
  | call c as =>
    logs_node step rfl (replaceM.eq_def _ _)
      (.map₂ call (replaceM_logs c) (replaceAllM_logs as)) (by simp [operands])
  | new c as =>
    logs_node step rfl (replaceM.eq_def _ _)
      (.map₂ new (replaceM_logs c) (replaceAllM_logs as)) (by simp [operands])
  | binary op l r =>
    logs_node step rfl (replaceM.eq_def _ _)
      (.map₂ (binary op) (replaceM_logs l) (replaceM_logs r)) (by simp [operands])
  | unary side op e =>
    logs_node step rfl (replaceM.eq_def _ _) (.map (unary side op) (replaceM_logs e))
      (by simp [operands])
  | assign op t v =>
    logs_node step rfl (replaceM.eq_def _ _)
      (.map₂ (assign op) (replaceM_logs t) (replaceM_logs v)) (by simp [operands])
  | dot b field =>
    logs_node step rfl (replaceM.eq_def _ _) (.map (fun b => dot b field) (replaceM_logs b))
      (by simp [operands])
  | sub b i =>
    logs_node step rfl (replaceM.eq_def _ _) (.map₂ sub (replaceM_logs b) (replaceM_logs i))
      (by simp [operands])
  | conditional t y e =>
    logs_node step rfl (replaceM.eq_def _ _)
      (.map₃ conditional (replaceM_logs t) (replaceM_logs y) (replaceM_logs e))
      (by simp [operands])
  | seq es =>
    logs_node step rfl (replaceM.eq_def _ _) (.map seq (replaceAllM_logs es))
      (by simp [operands])
  | function f ps b =>
    logs_node step rfl (replaceM.eq_def _ _) (.map (function f ps) (replaceAllM_logs b))
      (by simp [operands])
  | stat e =>
    logs_node step rfl (replaceM.eq_def _ _) (.map stat (replaceM_logs e)) (by simp [operands])
  | var ds =>
    logs_node step rfl (replaceM.eq_def _ _) (.map var (replaceFieldsM_logs ds))
      (by simp [operands])
  | const ds =>
    logs_node step rfl (replaceM.eq_def _ _) (.map const (replaceFieldsM_logs ds))
      (by simp [operands])
  | block b =>
    logs_node step rfl (replaceM.eq_def _ _) (.map block (replaceAllM_logs b))
      (by simp [operands])
  | ifElse c y e =>
    logs_node step rfl (replaceM.eq_def _ _)
      (.map₃ ifElse (replaceM_logs c) (replaceM_logs y) (replaceM_logs e)) (by simp [operands])
  | forLoop i c s b =>
    logs_node step rfl (replaceM.eq_def _ _)
      (.map₄ forLoop (replaceM_logs i) (replaceM_logs c) (replaceM_logs s) (replaceM_logs b))
      (by simp [operands])
  | forIn i o b =>
    logs_node step rfl (replaceM.eq_def _ _)
      (.map₃ forIn (replaceM_logs i) (replaceM_logs o) (replaceM_logs b)) (by simp [operands])
  | whileLoop c b =>
    logs_node step rfl (replaceM.eq_def _ _)
      (.map₂ whileLoop (replaceM_logs c) (replaceM_logs b)) (by simp [operands])
  | doLoop c b =>
    -- the condition is visited before the body
    logs_node step rfl (replaceM.eq_def _ _)
      (.map₂ doLoop (replaceM_logs c) (replaceM_logs b))
      (by simpa [operands] using List.perm_append_comm)
  | label l b =>
    logs_node step rfl (replaceM.eq_def _ _) (.map (label l) (replaceM_logs b))
      (by simp [operands])
  | ret v =>
    logs_node step rfl (replaceM.eq_def _ _) (.map ret (replaceM_logs v)) (by simp [operands])
  | throw v =>
    logs_node step rfl (replaceM.eq_def _ _) (.map throw (replaceM_logs v))
      (by simp [operands])
  | tryCatch b h f =>
    -- `finally` is visited before the handler
    logs_node step rfl (replaceM.eq_def _ _)
      (.map₃ (fun b f h => tryCatch b h f) (replaceAllM_logs b) (replaceFinalizerM_logs f)
        (replaceHandlerM_logs h))
      (by simpa [operands] using List.perm_append_comm.append_left _)
  | switch d cs =>
    -- the clauses are visited before the discriminant
    logs_node step rfl (replaceM.eq_def _ _)
      (.map₂ (fun cs d => switch d cs) (replaceCasesM_logs cs) (replaceM_logs d))
      (by simpa [operands, map_snd_clauses] using List.perm_append_comm)
  | withObject o b =>
    logs_node step rfl (replaceM.eq_def _ _)
      (.map₂ withObject (replaceM_logs o) (replaceM_logs b)) (by simp [operands])
  | defun f ps b =>
    logs_node step rfl (replaceM.eq_def _ _) (.map (defun f ps) (replaceAllM_logs b))
      (by simp [operands])
  | toplevel b =>
    logs_node step rfl (replaceM.eq_def _ _) (.map toplevel (replaceAllM_logs b))
      (by simp [operands])
  | splice ns =>
    logs_node step rfl (replaceM.eq_def _ _) (.map splice (replaceAllM_logs ns))
      (by simp [operands])

theorem replaceAllM_logs (ns : List Node) :
    Logs (replaceAllM (noting step) ns) (ns.map (replace step)) (ns.flatMap (visited step)) := by
  cases ns with
  | nil =>
    rw [replaceAllM]
    exact .pure []
  | cons n ns =>
    rw [replaceAllM]
    exact .map₂ List.cons (replaceM_logs n) (replaceAllM_logs ns)

theorem replaceFieldsM_logs (ps : List (String × Node)) :
    Logs (replaceFieldsM (noting step) ps) (ps.map (fun p => (p.1, p.2.replace step)))
      ((ps.map (·.2)).flatMap (visited step)) := by
  cases ps with
  | nil =>
    rw [replaceFieldsM]
    exact .pure []
  | cons p ps =>
    obtain ⟨k, n⟩ := p
    rw [replaceFieldsM]
    exact .map₂ (fun n ps => (k, n) :: ps) (replaceM_logs n) (replaceFieldsM_logs ps)

theorem replaceHandlerM_logs (h : Option (String × List Node)) :
    Logs (replaceHandlerM (noting step) h) (h.map (fun c => (c.1, c.2.map (replace step))))
      (((h.map (·.2)).getD []).flatMap (visited step)) := by
  cases h with
  | none =>
    rw [replaceHandlerM]
    exact .pure none
  | some c =>
    obtain ⟨x, b⟩ := c
    rw [replaceHandlerM]
    exact .map (fun b => some (x, b)) (replaceAllM_logs b)

theorem replaceFinalizerM_logs (f : Option (List Node)) :
    Logs (replaceFinalizerM (noting step) f) (f.map (fun b => b.map (replace step)))
      ((f.getD []).flatMap (visited step)) := by
  cases f with
  | none =>
    rw [replaceFinalizerM]
    exact .pure none
  | some b =>
    rw [replaceFinalizerM]
    exact .map some (replaceAllM_logs b)

theorem replaceCasesM_logs (cs : List (Node × List Node)) :
    Logs (replaceCasesM (noting step) cs)
      (cs.map (fun c => (c.1.replace step, c.2.map (replace step))))
      ((cs.flatMap (fun c => c.1 :: c.2)).flatMap (visited step)) := by
  cases cs with
  | nil =>
    rw [replaceCasesM]
    exact .pure []
  | cons c cs =>
    obtain ⟨t, b⟩ := c
    rw [replaceCasesM]
    refine .perm (.map₃ (fun t b cs => (t, b) :: cs) (replaceM_logs t) (replaceAllM_logs b)
      (replaceCasesM_logs cs)) ?_
    simp

end

/-! ## §3. Nodes at a path. -/

/-- The node at the end of a path of operand numbers.  Below a node the path goes on only if
    `enter` holds of it. -/
def nodeAt (enter : Node → Bool) : List Nat → Node → Option Node
  | [], n => some n
  | i :: path, n => if enter n then n.operands[i]?.bind (fun o => nodeAt enter path o.2) else none

section

variable (enter : Node → Bool)

theorem mem_inspect_self {n : Node} (hn : n.isAbsent = false) : n ∈ n.inspect enter := by
  cases he : enter n with
  | true =>
    rw [inspect_eq enter hn he]
    exact List.mem_cons_self
  | false =>
    rw [inspect_eq_singleton enter hn he]
    exact List.mem_singleton_self n

theorem mem_inspect_of_nodeAt {path : List Nat} {n m : Node} (hm : m.isAbsent = false)
    (h : nodeAt enter path n = some m) : m ∈ n.inspect enter := by
  induction path generalizing n with
  | nil =>
    obtain rfl := Option.some.inj h
    exact mem_inspect_self enter hm
  | cons i path ih =>
    rw [nodeAt] at h
    split at h
    next he =>
      obtain ⟨o, ho, hpath⟩ := Option.bind_eq_some_iff.mp h
      have hn : n.isAbsent = false := by
        cases n with
        | absent => cases ho
        | _ => rfl
      rw [inspect_eq_operands enter hn he]
      exact List.mem_cons_of_mem _ (List.mem_flatMap.mpr
        ⟨o.2, List.mem_map_of_mem (List.mem_of_getElem? ho), ih hpath⟩)
    next => cases h

theorem nodeAt_of_mem_inspect {n m : Node} (h : m ∈ n.inspect enter) :
    m.isAbsent = false ∧ ∃ path, nodeAt enter path n = some m := by
  cases hn : n.isAbsent with
  | true =>
    rw [isAbsent_eq_true_iff.mp hn, inspect] at h
    cases h
  | false =>
    cases he : enter n with
    | false =>
      rw [inspect_eq_singleton enter hn he, List.mem_singleton] at h
      exact ⟨h ▸ hn, [], by rw [h]; rfl⟩
    | true =>
      rw [inspect_eq_operands enter hn he] at h
      rcases List.mem_cons.mp h with rfl | h
      · exact ⟨hn, [], rfl⟩
      · obtain ⟨c, hc, hmc⟩ := List.mem_flatMap.mp h
        obtain ⟨o, ho, rfl⟩ := List.mem_map.mp hc
        rcases operand_absent_or_child ho with habs | hchild
        · rw [habs, inspect] at hmc
          cases hmc
        · have := sizeOf_lt_of_mem_children hchild
          obtain ⟨hm, path, hpath⟩ := nodeAt_of_mem_inspect hmc
          obtain ⟨i, hi⟩ := List.mem_iff_getElem?.mp ho
          refine ⟨hm, i :: path, ?_⟩
          rw [nodeAt, if_pos he, hi]
          exact hpath
termination_by sizeOf n

/-- What a walk visits is what stands at the ends of its paths, apart from empty positions. -/
theorem mem_inspect_iff_nodeAt (n m : Node) :
    m ∈ n.inspect enter ↔ m.isAbsent = false ∧ ∃ path, nodeAt enter path n = some m :=
  ⟨nodeAt_of_mem_inspect enter, fun ⟨hm, _, hpath⟩ => mem_inspect_of_nodeAt enter hm hpath⟩

end

/-- A path that leads to `m` leads to what `m` became. -/
theorem nodeAt_replace {path : List Nat} {n m : Node}
    (h : nodeAt (fun k => (step k).isNone) path n = some m) :
    nodeAt (fun _ => true) path (n.replace step) = some (m.replace step) := by
  induction path generalizing n with
  | nil =>
    obtain rfl := Option.some.inj h
    rfl
  | cons i path ih =>
    rw [nodeAt] at h
    split at h
    next hs =>
      obtain ⟨o, ho, hm⟩ := Option.bind_eq_some_iff.mp h
      rw [nodeAt, if_pos rfl, (replace_rebuilt step hs).operands, List.getElem?_map, ho]
      exact ih hm
    next => cases h

theorem isAbsent_replace {n : Node} (h : step n ≠ some absent) :
    (n.replace step).isAbsent = n.isAbsent := by
  cases hs : step n with
  | none =>
    rw [isAbsent_eq_isNone, (replace_rebuilt step (by rw [hs]; rfl)).kind, ← isAbsent_eq_isNone]
  | some r =>
    cases hn : n.isAbsent with
    | false =>
      rw [replace_eq step hn, hs, Option.getD_some]
      refine Bool.eq_false_iff.mpr fun hr => h ?_
      rw [hs, isAbsent_eq_true_iff.mp hr]
    | true =>
      rw [isAbsent_eq_true_iff.mp hn, replace_absent]
      rfl

end

/-- Where nothing is replaced the tree stays, its empty positions included. -/
theorem replace_none (n : Node) : n.replace (fun _ => none) = n := by
  have h := replace_rebuilt (fun _ => none) (n := n) rfl
  -- kind and scalars stay, so it is enough that every operand is given back
  apply eq_of_parts h.kind h.scalars
  rw [h.operands]
  have hsame : ∀ o ∈ n.operands, (o.1, o.2.replace (fun _ => none)) = id o := by
    intro o ho
    have hkept : o.2.replace (fun _ => none) = o.2 := by
      rcases operand_absent_or_child ho with hc | hc
      · rw [hc, replace_absent]
      · have := sizeOf_lt_of_mem_children hc
        exact replace_none o.2
    exact Prod.ext rfl hkept
  rw [List.map_congr_left hsame, List.map_id]
termination_by sizeOf n

/-! ## §4. The two walks. -/

/-- For every step and every tree: replacing calls the step on the nodes that a reading walk
    visits if it goes below a node exactly where the step leaves it, each as often as the walk
    does.  Every position that is not below a replaced node is there in the result and holds what
    its tree became: an empty one stays empty, a replaced node is its replacement, and any other
    has its kind, its scalars and its operands, each at its own position and with what it became;
    unless the step empties a position, the children are changed one by one.  A step that replaces
    nothing gives the tree back. -/
theorem replace_agrees_with_inspect (step : Node → Option Node) (n : Node) :
    (replaceVisits step n).Perm (n.inspect (fun k => (step k).isNone)) ∧
    (∀ path m, nodeAt (fun k => (step k).isNone) path n = some m →
      nodeAt (fun _ => true) path (n.replace step) = some (m.replace step) ∧
      (m.isAbsent = true → m.replace step = absent) ∧
      (∀ r, m.isAbsent = false → step m = some r → m.replace step = r) ∧
      (step m = none → m.RebuiltBy (replace step) (m.replace step)) ∧
      (step m = none → (∀ c ∈ m.children, step c ≠ some absent) →
        (m.replace step).children = m.children.map (replace step))) ∧
    n.replace (fun _ => none) = n := by
  refine ⟨?visits, ?positions, replace_none n⟩
  case visits =>
    obtain ⟨l, hl, hperm⟩ := replaceM_logs step n []
    show ((n.replaceM (noting step)).run []).2.Perm _
    rw [hl, List.nil_append]
    exact hperm
  case positions =>
    intro path m hpath
    refine ⟨nodeAt_replace step hpath, fun hm => ?_, fun r hm hs => ?_, fun hs => ?_,
      fun hs hkeep => ?_⟩
    · rw [isAbsent_eq_true_iff.mp hm, replace_absent]
    · rw [replace_eq step hm, hs, Option.getD_some]
    · exact replace_rebuilt step (by rw [hs]; rfl)
    · apply (replace_rebuilt step (by rw [hs]; rfl)).children
      intro o ho
      rcases operand_absent_or_child ho with habs | hchild
      · rw [habs, replace_absent]
      · exact isAbsent_replace step (hkeep o.2 hchild)

/-- The right side of `a = g(x)` at its path, with a step that puts `t0` for calls. -/
theorem replace_agrees_with_inspect_of_call :
    let step : Node → Option Node := fun k =>
      match k with
      | call _ _ => some (name "t0")
      | _ => none
    let tree := setTo (name "a") (call (name "g") [name "x"])
    nodeAt (fun k => (step k).isNone) [0, 1] tree = some (call (name "g") [name "x"]) ∧
      nodeAt (fun _ => true) [0, 1] (tree.replace step) = some (name "t0") := by
  intro step tree
  have hpath : nodeAt (fun k => (step k).isNone) [0, 1] tree =
      some (call (name "g") [name "x"]) := rfl
  obtain ⟨hat, -, hreplaced, -⟩ :=
    (replace_agrees_with_inspect step tree).2.1 [0, 1] _ hpath
  exact ⟨hpath, by rw [hat, hreplaced (name "t0") rfl rfl]⟩

end Resumable.Node
