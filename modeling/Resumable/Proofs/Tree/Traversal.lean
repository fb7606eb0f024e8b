/-
  Resumable.Proofs.Tree.Traversal — what a walk over a tree meets.

  Below a node stand its children, which are smaller than the node, so that a tree can be read by
  recursion over `children`.  A depth-first walk meets a node and then what its children hold
  (`inspect_eq`).

  `names` lists the identifier references of a tree.  The field of a member access is none, nor is
  what a `var`, a parameter or a declaration binds.  A node other than a reference mentions what its
  operands mention (`names_children`), so a fact about all names of a tree is one about the names of
  its operands (`namesIn_children`).
-/
import Resumable.Tree.Traverse

namespace Resumable.Node

/-! ## §1. Children are smaller. -/

theorem mem_present {n : Node} {ns : List Node} (h : n ∈ present ns) : n ∈ ns :=
  (List.mem_filter.mp h).1

theorem sizeOf_lt_of_mem_fields {c : Node} {ps : List (String × Node)} (h : c ∈ ps.map (·.2)) :
    sizeOf c < sizeOf ps := by
  obtain ⟨p, hp, rfl⟩ := List.mem_map.mp h
  have := List.sizeOf_lt_of_mem hp
  have : sizeOf p = 1 + sizeOf p.1 + sizeOf p.2 := rfl
  omega

theorem sizeOf_lt_of_mem_clauses {c : Node} {cs : List (Node × List Node)}
    (h : c ∈ cs.flatMap (fun c => c.1 :: c.2)) : sizeOf c < sizeOf cs := by
  obtain ⟨p, hp, hc⟩ := List.mem_flatMap.mp h
  have := List.sizeOf_lt_of_mem hp
  have : sizeOf p = 1 + sizeOf p.1 + sizeOf p.2 := rfl
  rcases List.mem_cons.mp hc with rfl | hc
  · omega
  · have := List.sizeOf_lt_of_mem hc
    omega

theorem sizeOf_lt_of_mem_children {n c : Node} (h : c ∈ n.children) : sizeOf c < sizeOf n := by
  cases n with
  | absent | name _ | num _ | string _ | atom _ | regexp _ _ | breakTo _ | continueTo _
  | debugger => cases h
  | array ns | seq ns | function _ _ ns | block ns | defun _ _ ns | toplevel ns | splice ns =>
    have := List.sizeOf_lt_of_mem (mem_present h)
    simp only [array.sizeOf_spec, seq.sizeOf_spec, function.sizeOf_spec, block.sizeOf_spec,
      defun.sizeOf_spec, toplevel.sizeOf_spec, splice.sizeOf_spec]
    omega
  | object ps | var ps | const ps =>
    have := sizeOf_lt_of_mem_fields (mem_present h)
    simp only [object.sizeOf_spec, var.sizeOf_spec, const.sizeOf_spec]
    omega
  | call f ns | new f ns =>
    have hsize : sizeOf c < sizeOf f + sizeOf ns + 1 := by
      rcases List.mem_cons.mp (mem_present h) with rfl | hc
      · omega
      · have := List.sizeOf_lt_of_mem hc
        omega
    simp only [call.sizeOf_spec, new.sizeOf_spec]
    omega
  | tryCatch b hd f =>
    simp only [children, present, List.mem_filter, List.mem_append] at h
    simp only [tryCatch.sizeOf_spec]
    obtain ⟨(hb | hh) | hf, -⟩ := h
    · have := List.sizeOf_lt_of_mem hb
      omega
    · cases hd with
      | none => cases hh
      | some p =>
        have := List.sizeOf_lt_of_mem hh
        have : sizeOf (some p) = 1 + (1 + sizeOf p.1 + sizeOf p.2) := rfl
        simp only [Option.map_some, Option.getD_some] at *
        omega
    · cases f with
      | none => cases hf
      | some l =>
        have := List.sizeOf_lt_of_mem hf
        have : sizeOf (some l) = 1 + sizeOf l := rfl
        simp only [Option.getD_some] at *
        omega
  | switch d cs =>
    rcases List.mem_cons.mp (mem_present h) with rfl | hc
    · simp only [switch.sizeOf_spec]
      omega
    · have := sizeOf_lt_of_mem_clauses hc
      simp only [switch.sizeOf_spec]
      omega
  | unary _ _ a | dot a _ | stat a | label _ a | ret a | throw a =>
    obtain rfl := List.mem_singleton.mp (mem_present h)
    simp only [unary.sizeOf_spec, dot.sizeOf_spec, stat.sizeOf_spec, label.sizeOf_spec,
      ret.sizeOf_spec, throw.sizeOf_spec]
    omega
  | binary _ a b | assign _ a b | sub a b | whileLoop a b | doLoop a b | withObject a b =>
    have hc := mem_present h
    simp only [List.mem_cons, List.not_mem_nil, or_false] at hc
    simp only [binary.sizeOf_spec, assign.sizeOf_spec, sub.sizeOf_spec, whileLoop.sizeOf_spec,
      doLoop.sizeOf_spec, withObject.sizeOf_spec]
    rcases hc with rfl | rfl <;> omega
  | conditional a b d | ifElse a b d | forIn a b d =>
    have hc := mem_present h
    simp only [List.mem_cons, List.not_mem_nil, or_false] at hc
    simp only [conditional.sizeOf_spec, ifElse.sizeOf_spec, forIn.sizeOf_spec]
    rcases hc with rfl | rfl | rfl <;> omega
  | forLoop a b d e =>
    have hc := mem_present h
    simp only [List.mem_cons, List.not_mem_nil, or_false] at hc
    simp only [forLoop.sizeOf_spec]
    rcases hc with rfl | rfl | rfl | rfl <;> omega

/-! ## §2. The depth-first walk. -/

/-- A tree and everything in it. -/
def everything (n : Node) : List Node := n.inspect (fun _ => true)

/-- Empty positions add nothing to what is listed node by node. -/
theorem flatMap_present_of {β : Type} (f : Node → List β) (hf : f absent = []) (ns : List Node) :
    (present ns).flatMap f = ns.flatMap f := by
  induction ns with
  | nil => rfl
  | cons n ns ih =>
    cases n with
    | absent =>
      rw [List.flatMap_cons, hf, List.nil_append]
      exact ih
    | _ =>
      rw [List.flatMap_cons, ← ih]
      rfl

section

variable (enter : Node → Bool)

theorem inspectAll_eq (ns : List Node) : inspectAll enter ns = ns.flatMap (inspect enter) := by
  induction ns with
  | nil => rfl
  | cons n ns ih => rw [inspectAll, ih, List.flatMap_cons]

theorem inspectFields_eq (ps : List (String × Node)) :
    inspectFields enter ps = (ps.map (·.2)).flatMap (inspect enter) := by
  induction ps with
  | nil => rfl
  | cons p ps ih => rw [inspectFields, ih, List.map_cons, List.flatMap_cons]

theorem inspectCases_eq (cs : List (Node × List Node)) :
    inspectCases enter cs = (cs.flatMap (fun c => c.1 :: c.2)).flatMap (inspect enter) := by
  induction cs with
  | nil => rfl
  | cons c cs ih =>
    rw [inspectCases, ih, inspectAll_eq, List.flatMap_cons, List.flatMap_append, List.flatMap_cons]

/-- Below a node that is entered stand its direct operands. -/
theorem inspect_eq {n : Node} (hn : n.isAbsent = false) (he : enter n = true) :
    n.inspect enter = n :: n.children.flatMap (inspect enter) := by
  have present_eq : ∀ ns, (present ns).flatMap (inspect enter) = ns.flatMap (inspect enter) :=
    flatMap_present_of _ (by rw [inspect])
  cases n with
  | absent => cases hn
  | tryCatch b h f =>
    rcases h with _ | ⟨x, hb⟩ <;> rcases f with _ | fb <;>
      simp [inspect, if_pos he, children, present_eq, inspectAll_eq]
  | name _ | num _ | string _ | atom _ | regexp _ _ | breakTo _ | continueTo _ | debugger =>
    simp only [inspect, children, List.flatMap_nil]
  | _ =>
    simp [inspect, if_pos he, children, present_eq, inspectAll_eq, inspectFields_eq,
      inspectCases_eq]

/-- A node that is not entered is visited alone. -/
theorem inspect_eq_singleton {n : Node} (hn : n.isAbsent = false) (he : enter n = false) :
    n.inspect enter = [n] := by
  cases n with
  | absent => cases hn
  | name _ | num _ | string _ | atom _ | regexp _ _ | breakTo _ | continueTo _ | debugger =>
    rw [inspect] <;> simp
  | tryCatch b h f => rcases h with _ | ⟨x, hb⟩ <;> cases f <;> simp [inspect, he]
  | _ =>
    rw [inspect]
    simp [he]

end

/-! ## §3. The names a tree mentions. -/

/-- The name that a node refers to. -/
def name? : Node → Option String
  | name x => some x
  | _ => none

/-- The names that a tree mentions, with repetitions. -/
def names (n : Node) : List String := n.everything.filterMap name?

@[simp] theorem names_name (x : String) : (name x).names = [x] := rfl

theorem names_eq {n : Node} (hn : n.name? = none) : n.names = n.children.flatMap names := by
  cases ha : n.isAbsent with
  | true =>
    cases n <;> cases ha
    rfl
  | false =>
    unfold names everything
    rw [inspect_eq _ ha rfl, List.filterMap_cons, hn, List.filterMap_flatMap]

/-- A node that is no reference mentions what its operands mention. -/
theorem names_children {n : Node} {l : List Node} (hn : n.name? = none)
    (hc : n.children = present l) : n.names = l.flatMap names := by
  rw [names_eq hn, hc, flatMap_present_of names rfl]

/-- Every name that a tree mentions has a property. -/
def NamesIn (A : String → Prop) (n : Node) : Prop := ∀ x ∈ n.names, A x

/-- Every name that the nodes of a list mention has a property. -/
def NamesAllIn (A : String → Prop) (ns : List Node) : Prop := ∀ n ∈ ns, n.NamesIn A

section

variable {A : String → Prop} {n : Node} {ns ms : List Node}

theorem namesIn_name {x : String} : (name x).NamesIn A ↔ A x := by
  unfold NamesIn
  rw [names_name, List.forall_mem_singleton]

theorem namesIn_children {l : List Node} (hn : n.name? = none) (hc : n.children = present l) :
    n.NamesIn A ↔ NamesAllIn A l := by
  unfold NamesIn NamesAllIn
  rw [names_children hn hc, List.forall_mem_flatMap]
  rfl

theorem namesIn_leaf (hn : n.name? = none) (hc : n.children = []) : n.NamesIn A :=
  (namesIn_children hn (l := []) hc).mpr nofun

theorem namesAllIn_nil : NamesAllIn A [] := nofun

theorem namesAllIn_cons : NamesAllIn A (n :: ns) ↔ n.NamesIn A ∧ NamesAllIn A ns :=
  List.forall_mem_cons

theorem namesAllIn_append : NamesAllIn A (ns ++ ms) ↔ NamesAllIn A ns ∧ NamesAllIn A ms :=
  List.forall_mem_append

end

end Resumable.Node
