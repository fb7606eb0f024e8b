/-
  Resumable.Proofs.Splices.Searching — searches through a dissolved tree.

  A search goes through a tree from top to bottom and takes from each node what it looks for.  One
  that looks at no more of a node than dissolving keeps, and passes through splices without taking
  anything, finds the same in a tree and in what the tree dissolves into, in the same order.

  Main statement: `inspect_dissolved`.
-/
import Resumable.Program.Walk
import Resumable.Proofs.Changes.Totals
import Resumable.Proofs.Splices.Dissolving

namespace Resumable

namespace Node

/-! ## §1. Operand by operand. -/

section

variable {β : Type} {f : Node → List β}

theorem flatMap_members (hf : ∀ ns, f (splice ns) = ns.flatMap f) (n : Node) :
    n.members.flatMap f = f n := by
  cases n with
  | splice ns => exact (hf ns).symm
  | _ => exact List.flatMap_singleton f _

/-- What is read off the elements of a list that was dissolved. -/
theorem flatMap_dissolvedAll (hf : ∀ ns, f (splice ns) = ns.flatMap f) {ns : List Node}
    (h : ∀ n ∈ ns, f n.dissolved = f n) : (dissolvedAll ns).flatMap f = ns.flatMap f := by
  induction ns with
  | nil => rfl
  | cons n ns ih =>
    obtain ⟨hn, hns⟩ := List.forall_mem_cons.mp h
    rw [dissolvedAll, List.flatMap_append, flatMap_members hf, hn, ih hns, List.flatMap_cons]

theorem flatMap_map_dissolved {ns : List Node} (h : ∀ n ∈ ns, f n.dissolved = f n) :
    (ns.map dissolved).flatMap f = ns.flatMap f := by
  rw [List.flatMap_map]
  exact List.flatMap_congr h

/-- A clause contributes its test and its statements. -/
theorem flatMap_dissolvedCases (hf : ∀ ns, f (splice ns) = ns.flatMap f)
    {cs : List (Node × List Node)}
    (h : ∀ n ∈ cs.flatMap (fun c => c.1 :: c.2), f n.dissolved = f n) :
    ((dissolvedCases cs).flatMap (fun c => c.1 :: c.2)).flatMap f =
      (cs.flatMap (fun c => c.1 :: c.2)).flatMap f := by
  induction cs with
  | nil => rfl
  | cons c cs ih =>
    obtain ⟨t, b⟩ := c
    rw [List.flatMap_cons, List.forall_mem_append, List.forall_mem_cons] at h
    obtain ⟨⟨ht, hb⟩, hcs⟩ := h
    rw [dissolvedCases, List.flatMap_cons, List.flatMap_cons, List.flatMap_append,
      List.flatMap_append, List.flatMap_cons, List.flatMap_cons, ht, flatMap_dissolvedAll hf hb,
      ih hcs]

/-- What is read off the operands of a node that was dissolved. -/
theorem flatMap_children_dissolved (hf : ∀ ns, f (splice ns) = ns.flatMap f) (ha : f absent = [])
    {n : Node} (h : ∀ c ∈ n.children, f c.dissolved = f c) :
    n.dissolved.children.flatMap f = n.children.flatMap f := by
  -- empty positions are no children, and have nothing to dissolve
  have all : ∀ ns, n.children = present ns → ∀ c ∈ ns, f c.dissolved = f c := by
    intro ns hn c hc
    cases hca : c.isAbsent with
    | true => cases c <;> first | rfl | cases hca
    | false => exact h c (hn ▸ List.mem_filter.mpr ⟨hc, by rw [hca]; rfl⟩)
  have each : ∀ ns, n.children = present ns → n.dissolved.children = present (ns.map dissolved) →
      n.dissolved.children.flatMap f = n.children.flatMap f := by
    intro ns hn hd
    rw [hn, hd, flatMap_present_of f ha, flatMap_present_of f ha, flatMap_map_dissolved (all ns hn)]
  have listed : ∀ ns, n.children = present ns → n.dissolved.children = present (dissolvedAll ns) →
      n.dissolved.children.flatMap f = n.children.flatMap f := by
    intro ns hn hd
    rw [hn, hd, flatMap_present_of f ha, flatMap_present_of f ha,
      flatMap_dissolvedAll hf (all ns hn)]
  cases n with
  | absent | name _ | num _ | string _ | atom _ | regexp _ _ | breakTo _ | continueTo _
  | debugger => rfl
  | array es | seq es => exact each es rfl (by rw [dissolved, children, dissolvedEach_eq])
  | object ps | var ps | const ps =>
    refine each (ps.map (·.2)) rfl ?_
    rw [dissolved, children, dissolvedFields_eq, List.map_map, List.map_map]
    rfl
  | call c as | new c as =>
    exact each (c :: as) rfl (by rw [dissolved, children, dissolvedEach_eq, List.map_cons])
  | unary _ _ a | dot a _ | stat a | label _ a | ret a | throw a => exact each [a] rfl rfl
  | binary _ a b | assign _ a b | sub a b | whileLoop a b | withObject a b =>
    exact each [a, b] rfl rfl
  | doLoop a b => exact each [b, a] rfl rfl
  | conditional a b c | ifElse a b c | forIn a b c => exact each [a, b, c] rfl rfl
  | forLoop a b c d => exact each [a, b, c, d] rfl rfl
  | function _ _ b | block b | defun _ _ b | toplevel b | splice b => exact listed b rfl rfl
  | tryCatch b handler last =>
    refine listed (b ++ (handler.map (·.2)).getD [] ++ last.getD []) rfl ?_
    rw [dissolved, children, dissolvedAll_append, dissolvedAll_append]
    rcases handler with _ | ⟨x, hb⟩ <;> rcases last with _ | fb <;> rfl
  | switch d cs =>
    have operands := all (d :: cs.flatMap (fun c => c.1 :: c.2)) rfl
    obtain ⟨hd, hcs⟩ := List.forall_mem_cons.mp operands
    rw [dissolved, children, children, flatMap_present_of f ha, flatMap_present_of f ha,
      List.flatMap_cons, List.flatMap_cons, hd, flatMap_dissolvedCases hf hcs]

end

/-! ## §2. Searches. -/

/-- What a search finds in a dissolved tree.  It enters and takes from a node whatever it does of
    what the node dissolves into; splices it enters and takes nothing from. -/
theorem inspect_dissolved {β : Type} {enter : Node → Bool} {g : Node → Option β}
    (henter : ∀ n, enter n.dissolved = enter n) (hg : ∀ n, g n.dissolved = g n)
    (splices : ∀ ns, enter (splice ns) = true ∧ g (splice ns) = none) (n : Node) :
    (n.dissolved.inspect enter).filterMap g = (n.inspect enter).filterMap g := by
  let found (n : Node) : List β := (n.inspect enter).filterMap g
  have inside : ∀ {n : Node}, n.isAbsent = false → enter n = true →
      found n = (g n).toList ++ n.children.flatMap found := by
    intro n hn he
    simp only [found]
    rw [inspect_eq enter hn he, List.filterMap_cons, List.filterMap_flatMap]
    cases g n <;> rfl
  have spliced : ∀ ns, found (splice ns) = ns.flatMap found := by
    intro ns
    rw [inside rfl (splices ns).1, (splices ns).2]
    exact flatMap_present_of found rfl ns
  show found n.dissolved = found n
  cases hn : n.isAbsent with
  | true => cases n <;> first | rfl | cases hn
  | false =>
    have hd : n.dissolved.isAbsent = false := (isAbsent_dissolved n).trans hn
    cases he : enter n with
    | false =>
      have hde : enter n.dissolved = false := (henter n).trans he
      simp only [found]
      rw [inspect_stop hn he, inspect_stop hd hde, List.filterMap_cons, List.filterMap_cons, hg n]
    | true =>
      have hde : enter n.dissolved = true := (henter n).trans he
      rw [inside hn he, inside hd hde, hg n,
        flatMap_children_dissolved spliced rfl fun c hc => inspect_dissolved henter hg splices c]
termination_by n
decreasing_by exact sizeOf_lt_of_mem_children hc

end Node

namespace Program.Walk

open Node (dissolved)

/-! ## §3. Names that may suspend. -/

@[simp] theorem calleeName_dissolved (n : Node) : calleeName n.dissolved = calleeName n := by
  cases n <;> rfl

@[simp] theorem isPrimitive_dissolved (isAsync : String → Bool) (n : Node) :
    isPrimitive isAsync n.dissolved = isPrimitive isAsync n := by
  cases n <;> rfl

@[simp] theorem isCall_dissolved (n : Node) : isCall n.dissolved = isCall n := by
  cases n <;> rfl

@[simp] theorem flaggedName?_dissolved (isAsync : String → Bool) (n : Node) :
    flaggedName? isAsync n.dissolved = flaggedName? isAsync n := by
  cases n with
  | call c args => simp only [dissolved, flaggedName?, calleeName_dissolved]
  | _ => rfl

/-- A tree and what it dissolves into mention the same. -/
theorem mentions_dissolved (isAsync : String → Bool) (n : Node) :
    mentions isAsync n.dissolved = mentions isAsync n := by
  let taken (k : Node) : Option Unit := if isPrimitive isAsync k then some () else none
  have any_eq : ∀ ns : List Node, ns.any (isPrimitive isAsync) = !(ns.filterMap taken).isEmpty := by
    intro ns
    induction ns with
    | nil => rfl
    | cons k ns ih =>
      rw [List.any_cons, List.filterMap_cons, ih]
      cases hk : isPrimitive isAsync k <;> simp [taken, hk]
  unfold mentions
  rw [any_eq, any_eq, Node.inspect_dissolved (fun k => congrArg (!·) (isCall_dissolved k))
    (fun k => by simp only [taken, isPrimitive_dissolved]) fun _ => ⟨rfl, rfl⟩]

/-- The first call that may suspend has the same name. -/
theorem flaggedCall?_dissolved (isAsync : String → Bool) (n : Node) :
    flaggedCall? isAsync n.dissolved = flaggedCall? isAsync n := by
  unfold flaggedCall?
  rw [← List.head?_filterMap, ← List.head?_filterMap,
    Node.inspect_dissolved (fun _ => rfl) (flaggedName?_dissolved isAsync) fun _ => ⟨rfl, rfl⟩]

end Program.Walk

end Resumable
