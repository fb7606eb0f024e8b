/-
  Resumable.Proofs.Scope.References — the names a tree uses.

  `references` lists every use of a name in a tree, from left to right: a name by itself, a field of
  the container, a member of anything else, or a `var` binding.  Each use knows what the function
  literals around it bind, because their parameters and their own `var` names hide those of the
  unit.

  A node uses names by itself or in one of its parts (`mem_references`), and declares names itself
  or in one of its statements (`vars_eq`).

  The uses of a program are those of its payloads and conditions.  The tree of a program has no
  others (`references_tree`).
-/
import Mathlib.Data.List.Basic
import Mathlib.Tactic.Tauto
import Resumable.Program.Transform
import Resumable.Proofs.Sorts.Gaps

namespace Resumable

/-! ## §1. References. -/

/-- How a name is used. -/
inductive Use where
  /-- A reference to the name itself. -/
  | bare
  /-- A reference to the field of the container. -/
  | redirected
  /-- An access to the member of anything else. -/
  | member
  /-- A `var` binding of the name. -/
  | binding
  deriving DecidableEq, Repr

/-- A use of a name. -/
structure Reference where
  name : String
  use : Use
  /-- The parameters and the `var` names of the function literals around it, the outermost first. -/
  around : List (List String)
  deriving DecidableEq, Repr

namespace Reference

/-- A function literal around the use binds the name. -/
def Hidden (r : Reference) : Prop := r.name ∈ r.around.flatten

instance (r : Reference) : Decidable r.Hidden := inferInstanceAs (Decidable (_ ∈ _))

/-- A use of a name in a dotted path with these parts: that of its root, or that of the part behind
    it if the root is the container. -/
def InPath (c : String) (xs : List String) (r : Reference) : Prop :=
  match r.use with
  | .bare => xs.head? = some r.name
  | .redirected => [c, r.name] <+: xs
  | .member => True
  | .binding => False

theorem InPath.append {c x : String} {xs : List String} {r : Reference}
    (h : r.InPath c (x :: xs)) (f : String) : r.InPath c (x :: xs ++ [f]) := by
  obtain ⟨y, use, around⟩ := r
  cases use with
  | bare => exact h
  | redirected => exact List.IsPrefix.trans h (List.prefix_append _ _)
  | member => trivial
  | binding => exact h

/-- Whether a use is a `var` binding outside function literals. -/
def isOuter (r : Reference) : Bool := r.use == .binding && r.around.isEmpty

/-- The names that `var` statements outside function literals bind, in order and with
    repetitions. -/
def outerNames (rs : List Reference) : List String := (rs.filter isOuter).map (·.name)

theorem outerNames_append (rs rs' : List Reference) :
    outerNames (rs ++ rs') = outerNames rs ++ outerNames rs' := by
  unfold outerNames
  rw [List.filter_append, List.map_append]

theorem mem_outerNames {rs : List Reference} {x : String} :
    x ∈ outerNames rs ↔ ⟨x, .binding, []⟩ ∈ rs := by
  unfold outerNames
  rw [List.mem_map]
  constructor
  · intro h
    obtain ⟨⟨y, use, around⟩, hr, rfl⟩ := h
    obtain ⟨hmem, houter⟩ := List.mem_filter.mp hr
    simp only [isOuter, Bool.and_eq_true, beq_iff_eq, List.isEmpty_iff] at houter
    obtain ⟨rfl, rfl⟩ := houter
    exact hmem
  · intro h
    exact ⟨⟨x, .binding, []⟩, List.mem_filter.mpr ⟨h, rfl⟩, rfl⟩

end Reference

/-- Whether what is declared at a position is declared for the node around it as well. -/
def Position.isStatement : Position → Bool
  | statement | optionalStatement | header | iterator => true
  | _ => false

namespace Node

/-- Whether a node is a certain name. -/
def isNamed (x : String) : Node → Bool
  | name y => y == x
  | _ => false

theorem eq_name_of_isNamed {n : Node} {x : String} (h : n.isNamed x = true) : n = name x := by
  cases n with
  | name y => exact congrArg name (beq_iff_eq.mp h)
  | _ => cases h

mutual

/-- The uses of names in a node, from left to right. -/
def references (c : String) (around : List (List String)) : Node → List Reference
  | name x => [⟨x, .bare, around⟩]
  | dot b f =>
      if b.isNamed c then [⟨f, .redirected, around⟩]
      else ⟨f, .member, around⟩ :: references c around b
  | function _ ps b => referencesAll c (around ++ [ps ++ varsAll b]) b
  | call f as => references c around f ++ referencesAll c around as
  | new f as => references c around f ++ referencesAll c around as
  | unary _ _ e => references c around e
  | binary _ l r => references c around l ++ references c around r
  | assign _ t v => references c around t ++ references c around v
  | sub b i => references c around b ++ references c around i
  | conditional t y n => references c around t ++ references c around y ++ references c around n
  | array es => referencesAll c around es
  | seq es => referencesAll c around es
  | object ps => referencesFields c around ps
  | const ds => referencesFields c around ds
  | var ds => referencesBindings c around ds
  | stat e => references c around e
  | label _ b => references c around b
  | ret v => references c around v
  | throw v => references c around v
  | whileLoop t b => references c around t ++ references c around b
  | doLoop t b => references c around t ++ references c around b
  | withObject o b => references c around o ++ references c around b
  | ifElse t y n => references c around t ++ references c around y ++ references c around n
  | forIn i o b => references c around i ++ references c around o ++ references c around b
  | forLoop i t s b =>
      references c around i ++ references c around t ++ references c around s ++
        references c around b
  | tryCatch b h f =>
      referencesAll c around b ++ referencesHandler c around h ++ referencesFinalizer c around f
  | switch d cs => references c around d ++ referencesCases c around cs
  | block b => referencesAll c around b
  | splice ns => referencesAll c around ns
  | toplevel b => referencesAll c around b
  | defun _ _ b => referencesAll c around b
  | _ => []

/-- The uses of names in the nodes of a list. -/
def referencesAll (c : String) (around : List (List String)) : List Node → List Reference
  | [] => []
  | n :: rest => references c around n ++ referencesAll c around rest

/-- The uses of names in the values of named fields. -/
def referencesFields (c : String) (around : List (List String)) :
    List (String × Node) → List Reference
  | [] => []
  | (_, n) :: rest => references c around n ++ referencesFields c around rest

/-- The uses of names in `var` bindings, those bound included. -/
def referencesBindings (c : String) (around : List (List String)) :
    List (String × Node) → List Reference
  | [] => []
  | (x, n) :: rest =>
      ⟨x, .binding, around⟩ :: (references c around n ++ referencesBindings c around rest)

/-- The uses of names in a catch clause. -/
def referencesHandler (c : String) (around : List (List String)) :
    Option (String × List Node) → List Reference
  | none => []
  | some (_, b) => referencesAll c around b

/-- The uses of names in a `finally` list. -/
def referencesFinalizer (c : String) (around : List (List String)) :
    Option (List Node) → List Reference
  | none => []
  | some b => referencesAll c around b

/-- The uses of names in switch clauses. -/
def referencesCases (c : String) (around : List (List String)) :
    List (Node × List Node) → List Reference
  | [] => []
  | (t, b) :: rest =>
      references c around t ++ referencesAll c around b ++ referencesCases c around rest

end

variable {c : String} {around : List (List String)}

theorem referencesAll_eq (ns : List Node) :
    referencesAll c around ns = ns.flatMap (references c around) := by
  induction ns with
  | nil => simp [referencesAll]
  | cons n ns ih => rw [referencesAll, ih, List.flatMap_cons]

theorem referencesFields_eq (ps : List (String × Node)) :
    referencesFields c around ps = (ps.map (·.2)).flatMap (references c around) := by
  induction ps with
  | nil => simp [referencesFields]
  | cons p ps ih =>
    obtain ⟨k, n⟩ := p
    rw [referencesFields, ih, List.map_cons, List.flatMap_cons]

/-- A binding comes with the names its values use. -/
theorem mem_referencesBindings {r : Reference} {ds : List (String × Node)} :
    r ∈ referencesBindings c around ds ↔
      (∃ x ∈ ds.map (·.1), r = ⟨x, .binding, around⟩) ∨ r ∈ referencesFields c around ds := by
  induction ds with
  | nil => simp [referencesBindings, referencesFields]
  | cons d ds ih =>
    obtain ⟨x, n⟩ := d
    simp only [referencesBindings, referencesFields, List.mem_cons, List.mem_append, ih,
      List.map_cons, or_and_right, exists_or, exists_eq_left]
    rw [or_assoc, or_left_comm (a := r ∈ references c around n)]

theorem references_dot {b : Node} {f : String} (h : b.isNamed c = false) :
    (dot b f).references c around = ⟨f, .member, around⟩ :: b.references c around := by
  rw [references, h, if_neg Bool.false_ne_true]

theorem referencesCases_eq (cs : List (Node × List Node)) :
    referencesCases c around cs = cs.flatMap fun k => references c around k.1 ++
      k.2.flatMap (references c around) := by
  induction cs with
  | nil => simp [referencesCases]
  | cons k cs ih =>
    obtain ⟨t, b⟩ := k
    rw [referencesCases, ih, referencesAll_eq, List.flatMap_cons]

/-! ## §2. Nodes and their parts. -/

/-- What the function literals around the parts of a node bind. -/
def within (around : List (List String)) : Node → List (List String)
  | function _ ps b => around ++ [ps ++ varsAll b]
  | _ => around

/-- Whether a node reads a field of the container. -/
def readsField (c : String) : Node → Bool
  | dot b _ => b.isNamed c
  | _ => false

/-- The uses of names in a node that are in none of its parts. -/
def ownReferences (c : String) (around : List (List String)) : Node → List Reference
  | name x => [⟨x, .bare, around⟩]
  | dot b f => [⟨f, if b.isNamed c then .redirected else .member, around⟩]
  | var ds => ds.map fun d => ⟨d.1, .binding, around⟩
  | _ => []

/-- A node uses a name itself, or one of its parts does. -/
theorem mem_references {n : Node} {r : Reference} : r ∈ n.references c around ↔
    r ∈ n.ownReferences c around ∨
      n.readsField c = false ∧ ∃ p ∈ n.positions, r ∈ p.2.references c (n.within around) := by
  have hparts : (∃ p ∈ n.positions, r ∈ p.2.references c (n.within around)) ↔
      r ∈ (n.positions.map (·.2)).flatMap (references c (n.within around)) := by
    simp only [List.mem_flatMap, List.mem_map, exists_exists_and_eq_and]
  rw [hparts]
  clear hparts
  cases n with
  | dot b f =>
    cases hb : b.isNamed c <;> simp [references, ownReferences, readsField, positions, within, hb]
  | var ds =>
    rw [references, mem_referencesBindings, referencesFields_eq]
    simp [ownReferences, readsField, positions, within, Function.comp_def, eq_comm]
  | doLoop t b => simp [references, ownReferences, readsField, positions, within, or_comm]
  | switch d cs =>
    simp [references, referencesCases_eq, ownReferences, readsField, positions, within,
      List.map_flatMap, List.flatMap_assoc, Function.comp_def]
  | tryCatch b h f =>
    cases h <;> cases f <;> simp [references, referencesHandler, referencesFinalizer,
      referencesAll_eq, ownReferences, readsField, positions, within, Function.comp_def]
  | _ =>
    simp [references, referencesAll_eq, referencesFields_eq, ownReferences, readsField, positions,
      within, Function.comp_def]

theorem varsAll_eq (ns : List Node) : varsAll ns = ns.flatMap vars := by
  induction ns with
  | nil => simp [varsAll]
  | cons n ns ih => rw [varsAll, ih, List.flatMap_cons]

theorem varsCases_eq (cs : List (Node × List Node)) :
    varsCases cs = cs.flatMap fun k => k.2.flatMap vars := by
  induction cs with
  | nil => simp [varsCases]
  | cons k cs ih =>
    obtain ⟨t, b⟩ := k
    rw [varsCases, ih, varsAll_eq, List.flatMap_cons]

/-- The names that a node itself declares. -/
def ownVars : Node → List String
  | var ds => ds.map (·.1)
  | _ => []

/-- What declares names for the node around it: its statements and what heads it, unless they stand
    in a function literal or in a unit. -/
def statements (n : Node) : List Node :=
  if n.kind? = some .function ∨ n.kind? = some .toplevel then []
  else (n.positions.filter (·.1.isStatement)).map (·.2)

/-- A node declares names itself, or its statements do. -/
theorem vars_eq (n : Node) : n.vars = n.ownVars ++ n.statements.flatMap vars := by
  cases n with
  | unary side op e =>
    cases side <;> simp [vars, ownVars, statements, kind?, positions, Position.isStatement]
  | switch d cs =>
    simp [vars, varsCases_eq, ownVars, statements, kind?, positions, Position.isStatement,
      List.filter_flatMap, List.map_flatMap, List.flatMap_assoc, Function.comp_def,
      List.filter_map, List.filter_true]
  | tryCatch b h f =>
    cases h <;> cases f <;> simp [vars, varsAll_eq, ownVars, statements, kind?, positions,
      Position.isStatement, List.filter_map, Function.comp_def, List.filter_true]
  | _ =>
    simp [vars, varsAll_eq, ownVars, statements, kind?, positions, Position.isStatement,
      List.filter_map, Function.comp_def, List.filter_true]

/-- A statement stands at a position, with the same function literals around. -/
theorem mem_statements (c : String) (around : List (List String)) {n m : Node}
    (h : m ∈ n.statements) :
    (∃ p ∈ n.positions, p.2 = m) ∧ n.readsField c = false ∧ n.within around = around := by
  unfold statements at h
  split at h
  · cases h
  · next hkind =>
    obtain ⟨p, hp, rfl⟩ := List.mem_map.mp h
    obtain ⟨hp, hstatement⟩ := List.mem_filter.mp hp
    refine ⟨⟨p, hp, rfl⟩, ?_⟩
    cases n with
    | dot b f => cases List.mem_singleton.mp hp; cases hstatement
    | function f ps b => exact absurd (.inl rfl) hkind
    | _ => exact ⟨rfl, rfl⟩

/-- A name that is known before a walk has a `var` binding. -/
theorem binding_of_vars {x : String} (n : Node) (h : x ∈ n.vars) :
    ⟨x, .binding, around⟩ ∈ n.references c around := by
  rw [vars_eq, List.mem_append, List.mem_flatMap] at h
  rcases h with h | ⟨m, hm, hx⟩
  · refine mem_references.mpr (.inl ?_)
    cases n with
    | var ds =>
      obtain ⟨d, hd, rfl⟩ := List.mem_map.mp h
      exact List.mem_map_of_mem hd
    | _ => cases h
  · obtain ⟨⟨p, hp, rfl⟩, hreads, hwithin⟩ := mem_statements c around hm
    have hpresent : p.2.isAbsent = false := by
      cases hn : p.2.isAbsent with
      | false => rfl
      | true =>
        rw [isAbsent_eq_true_iff.mp hn] at hx
        simp [vars] at hx
    have := sizeOf_lt_of_mem_positions hp hpresent
    refine mem_references.mpr (.inr ⟨hreads, p, hp, ?_⟩)
    rw [hwithin]
    exact binding_of_vars p.2 hx
termination_by sizeOf n

theorem binding_of_varsAll {x : String} (ns : List Node) (h : x ∈ varsAll ns) :
    ⟨x, .binding, around⟩ ∈ referencesAll c around ns := by
  rw [varsAll_eq, List.mem_flatMap] at h
  rw [referencesAll_eq, List.mem_flatMap]
  obtain ⟨n, hn, hx⟩ := h
  exact ⟨n, hn, binding_of_vars n hx⟩

/-! ## §3. Flattening. -/

theorem referencesAll_append (ms ns : List Node) :
    referencesAll c around (ms ++ ns) = referencesAll c around ms ++ referencesAll c around ns := by
  rw [referencesAll_eq, referencesAll_eq, referencesAll_eq, List.flatMap_append]

mutual

theorem referencesAll_inlined (n : Node) :
    referencesAll c around n.inlined = n.references c around := by
  cases n with
  | absent => simp [inlined, referencesAll, references]
  | splice ns => rw [inlined, references, referencesAll_flatten ns]
  | _ => simp [inlined, referencesAll]
termination_by structural n

/-- Expanding splices and dropping empty positions keeps the uses of names. -/
theorem referencesAll_flatten (ns : List Node) :
    referencesAll c around (flatten ns) = referencesAll c around ns := by
  cases ns with
  | nil => simp
  | cons n ns =>
    rw [flatten, referencesAll_append, referencesAll_inlined n, referencesAll_flatten ns,
      referencesAll]
termination_by structural ns

end

/-- An empty position uses no names. -/
theorem references_spliceOf (ns : List Node) :
    (spliceOf ns).references c around = referencesAll c around ns := by
  unfold spliceOf
  rw [references]
  induction ns with
  | nil => rfl
  | cons n ns ih =>
    rw [referencesAll, ← ih]
    cases n with
    | absent => rfl
    | _ => rw [List.filter_cons_of_pos rfl, referencesAll]

end Node

namespace Program

/-! ## §4. Programs and their trees. -/

namespace Instr

/-- The use of a temp that stands for the value of a list. -/
def tempReferences (temp : Option String) : List Reference :=
  temp.toList.map fun x => ⟨x, .bare, []⟩

mutual

/-- The uses of names in an instruction. -/
def references (c : String) : Instr → List Reference
  | leaf _ code _ => code.references c []
  | branch cond yes no _ _ yesTemp noTemp =>
      cond.references c [] ++ (referencesAll c yes ++ tempReferences yesTemp) ++
        (referencesAll c no ++ tempReferences noTemp)
  | loop cond test step body _ stepExpr =>
      cond.references c [] ++ referencesAll c test ++ referencesAll c step ++
        referencesAll c body ++ stepExpr.references c []
  | defun _ _ body => referencesAll c body

/-- The uses of names in a list of instructions. -/
def referencesAll (c : String) : List Instr → List Reference
  | [] => []
  | i :: rest => references c i ++ referencesAll c rest

end

theorem referencesAll_append (c : String) (xs ys : List Instr) :
    referencesAll c (xs ++ ys) = referencesAll c xs ++ referencesAll c ys := by
  induction xs with
  | nil => simp [referencesAll]
  | cons x xs ih => rw [List.cons_append, referencesAll, ih, referencesAll, List.append_assoc]

end Instr

open Node (references_spliceOf referencesAll_flatten)

variable {c : String}

/-- The statements of one side of a branch, placed before it or inside it. -/
theorem references_side (temp : Option String) (ns : List Node) :
    Node.referencesAll c [] (rebuildSide temp ns).1 ++ (rebuildSide temp ns).2.references c [] =
      Node.referencesAll c [] ns ++ Instr.tempReferences temp := by
  cases temp <;> simp [rebuildSide, Instr.tempReferences, Node.referencesAll, Node.references]

theorem references_branch (cond : Node) (yes no : List Node × Node) :
    (rebuildBranch cond yes no).references c [] ⊆
      cond.references c [] ++ (Node.referencesAll c [] yes.1 ++ yes.2.references c []) ++
        (Node.referencesAll c [] no.1 ++ no.2.references c []) := by
  intro r hr
  simp only [rebuildBranch] at hr
  split at hr
  · simp only [Node.references, List.mem_append] at hr ⊢
    tauto
  · rw [references_spliceOf, Node.referencesAll_append, Node.referencesAll_append] at hr
    simp only [Node.referencesAll, Node.references, List.mem_append, List.append_nil] at hr ⊢
    tauto

theorem references_loop (cond : Node) (test step body : List Node) (condSplit : Bool)
    (stepExpr : Node) :
    (rebuildLoop cond test step body condSplit stepExpr).references c [] ⊆
      cond.references c [] ++ Node.referencesAll c [] test ++ Node.referencesAll c [] step ++
        Node.referencesAll c [] body ++ stepExpr.references c [] := by
  intro r hr
  -- all of the test but its last statement is kept
  have htest : r ∈ Node.referencesAll c [] test.dropLast → r ∈ Node.referencesAll c [] test := by
    rw [Node.referencesAll_eq, Node.referencesAll_eq, List.mem_flatMap, List.mem_flatMap]
    intro h
    obtain ⟨n, hn, h⟩ := h
    exact ⟨n, List.dropLast_subset test hn, h⟩
  unfold rebuildLoop at hr
  cases condSplit <;> cases hs : stepExpr.isAbsent <;>
    simp [hs, Node.references, Node.referencesAll, Node.referencesAll_append] at hr ⊢ <;> tauto

mutual

theorem references_rebuild (i : Instr) : (rebuild i).references c [] ⊆ i.references c := by
  cases i with
  | leaf command code async =>
    rw [rebuild, Instr.references]
    split
    · rw [Node.references]
      exact List.Subset.refl _
    · exact List.Subset.refl _
  | branch cond yes no hasElse shape yesTemp noTemp =>
    rw [rebuild, Instr.references]
    have hyes := referencesAll_rebuild yes
    have hno := referencesAll_rebuild no
    intro r hr
    have hr := references_branch _ _ _ hr
    rw [references_side] at hr
    cases hasElse with
    | true =>
      rw [if_pos rfl, references_side] at hr
      simp only [List.mem_append] at hr ⊢
      have := @hyes r
      have := @hno r
      tauto
    | false =>
      simp only [Bool.false_eq_true, if_false, List.mem_append, Node.referencesAll,
        Node.references, List.not_mem_nil, or_false] at hr ⊢
      have := @hyes r
      tauto
  | loop cond test step body condSplit stepExpr =>
    rw [rebuild, Instr.references]
    intro r hr
    have hr := references_loop _ _ _ _ _ _ hr
    simp only [List.mem_append] at hr ⊢
    have := @referencesAll_rebuild test r
    have := @referencesAll_rebuild step r
    have := @referencesAll_rebuild body r
    tauto
  | defun name params body =>
    rw [rebuild, Instr.references, Node.references]
    exact referencesAll_rebuild body
termination_by structural i

theorem referencesAll_rebuild (list : List Instr) :
    Node.referencesAll c [] (rebuildAll list) ⊆ Instr.referencesAll c list := by
  cases list with
  | nil => simp [rebuildAll, Node.referencesAll]
  | cons i rest =>
    rw [rebuildAll, Node.referencesAll, Instr.referencesAll]
    intro r hr
    rcases List.mem_append.mp hr with hr | hr
    · exact List.mem_append_left _ (references_rebuild i hr)
    · exact List.mem_append_right _ (referencesAll_rebuild rest hr)
termination_by structural list

end

/-- The tree of a program uses names as the program does. -/
theorem references_tree (program : List Instr) :
    (Node.toplevel (Node.flatten (rebuildAll program))).references c [] ⊆
      Instr.referencesAll c program := by
  rw [Node.references, referencesAll_flatten]
  exact referencesAll_rebuild program

end Program

end Resumable
