/-
  Resumable.Proofs.Sorts.Positions — what may stand where in a tree.

  A tree built by hand may put any node anywhere and leave any position empty.  `positions` lists
  the positions of a node with what stands there; a node is well-sorted if everything in it stands
  where it may.  This is all that is asked of a unit to be compiled.
-/
import Resumable.Proofs.Tree.Traversal
import Resumable.Program.Walk

namespace Resumable

/-- A position of a tree, by what may stand there. -/
inductive Position where
  /-- An expression. -/
  | operand
  /-- An expression, or nothing. -/
  | optional
  /-- A name or a member access. -/
  | target
  /-- An expression, or a statement of a kind other than a unit. -/
  | statement
  /-- A statement, or nothing. -/
  | optionalStatement
  /-- A declaration or an expression, or nothing. -/
  | header
  /-- A declaration of one name, or an expression. -/
  | iterator
  deriving DecidableEq, Repr

/-- Whether a node may stand at a position. -/
def Position.admits : Position → Node → Bool
  | operand, n => n.isExpression
  | optional, n => n.isAbsent || n.isExpression
  | target, n => Program.Walk.isTarget n
  | statement, n => n.kind?.any (· != .toplevel)
  | optionalStatement, n => n.kind?.all (· != .toplevel)
  | header, n => n.isAbsent || n.kind? == some .var || n.isExpression
  | iterator, .var [_] => true
  | iterator, n => n.isExpression

/-- Whether a position is at the head of a loop, where declarations may stand. -/
def Position.isHead : Position → Bool
  | header | iterator => true
  | _ => false

/-- Elsewhere only the kind of a node matters. -/
theorem Position.admits_congr {p : Position} (hp : p.isHead = false) {m n : Node}
    (h : m.kind? = n.kind?) : p.admits m = p.admits n := by
  have target_eq : ∀ k : Node, Program.Walk.isTarget k =
      k.kind?.any (fun kind => kind == .name || kind == .dot || kind == .sub) := by
    intro k
    cases k with
    | unary side _ _ => cases side <;> rfl
    | _ => rfl
  have expression_eq : m.isExpression = n.isExpression := congrArg (·.any Kind.isExpression) h
  cases p with
  | header | iterator => cases hp
  | operand => exact expression_eq
  | optional =>
    show (m.isAbsent || m.isExpression) = (n.isAbsent || n.isExpression)
    rw [Node.isAbsent_eq_isNone, Node.isAbsent_eq_isNone, h, expression_eq]
  | target =>
    show Program.Walk.isTarget m = Program.Walk.isTarget n
    rw [target_eq, target_eq, h]
  | statement => exact congrArg (·.any (· != .toplevel)) h
  | optionalStatement => exact congrArg (·.all (· != .toplevel)) h

namespace Node

/-! ## §1. Well-sorted trees. -/

/-- The positions of a node, with what stands there. -/
def positions : Node → List (Position × Node)
  | absent | name _ | num _ | string _ | atom _ | regexp _ _ | breakTo _ | continueTo _
  | debugger => []
  | array es | seq es => es.map (.operand, ·)
  | object ps => ps.map (fun p => (.operand, p.2))
  | call c as | new c as => (.operand, c) :: as.map (.operand, ·)
  | binary _ l r => [(.operand, l), (.operand, r)]
  | unary _ _ e => [(.operand, e)]
  | assign _ t v => [(.target, t), (.operand, v)]
  | dot b _ => [(.operand, b)]
  | sub b i => [(.operand, b), (.operand, i)]
  | conditional t y n => [(.operand, t), (.operand, y), (.operand, n)]
  | function _ _ b | defun _ _ b => b.map (.statement, ·)
  | stat e => [(.operand, e)]
  | var ds | const ds => ds.map (fun d => (.optional, d.2))
  | block b | toplevel b | splice b => b.map (.statement, ·)
  | ifElse c y n => [(.operand, c), (.statement, y), (.optionalStatement, n)]
  | forLoop i c s b => [(.header, i), (.optional, c), (.optional, s), (.statement, b)]
  | forIn i o b => [(.iterator, i), (.operand, o), (.statement, b)]
  | whileLoop c b => [(.operand, c), (.statement, b)]
  | doLoop c b => [(.statement, b), (.operand, c)]
  | label _ b => [(.statement, b)]
  | ret v => [(.optional, v)]
  | throw v => [(.operand, v)]
  | tryCatch b h f =>
      (b ++ (h.map (·.2)).getD [] ++ f.getD []).map (.statement, ·)
  | switch d cs =>
      (.operand, d) :: cs.flatMap (fun c => (.optional, c.1) :: c.2.map (.statement, ·))
  | withObject o b => [(.operand, o), (.statement, b)]

/-- A tree in which everything stands where it may. -/
inductive WellSorted : Node → Prop
  | intro {n : Node} (admitted : ∀ p ∈ n.positions, p.1.admits p.2 = true)
      (sorted : ∀ p ∈ n.positions, WellSorted p.2) : WellSorted n

/-- A well-sorted tree that may stand at a position. -/
structure Fits (p : Position) (n : Node) : Prop where
  admitted : p.admits n = true
  sorted : WellSorted n

theorem wellSorted_iff {n : Node} : WellSorted n ↔ ∀ p ∈ n.positions, Fits p.1 p.2 := by
  constructor
  · rintro ⟨admitted, sorted⟩ p hp
    exact ⟨admitted p hp, sorted p hp⟩
  · intro h
    exact .intro (fun p hp => (h p hp).admitted) (fun p hp => (h p hp).sorted)

section

variable {n : Node}

theorem Fits.isAbsent (h : Fits .statement n) : n.isAbsent = false := by
  cases n with
  | absent => cases h.admitted
  | _ => rfl

theorem Fits.of_target (h : Fits .target n) : Fits .operand n := by
  refine ⟨?_, h.sorted⟩
  cases n with
  | name _ | dot _ _ | sub _ _ => rfl
  | _ => cases h.admitted

theorem Fits.of_optional (h : Fits .optional n) (ha : ¬ n.isAbsent = true) : Fits .operand n :=
  ⟨((Bool.or_eq_true _ _).mp h.admitted).resolve_left ha, h.sorted⟩

theorem Fits.of_optionalStatement (h : Fits .optionalStatement n) (ha : ¬ n.isAbsent = true) :
    Fits .statement n := by
  refine ⟨?_, h.sorted⟩
  cases n with
  | absent => exact absurd rfl ha
  | unary side _ _ => cases side <;> rfl
  | toplevel _ => cases h.admitted
  | _ => rfl

theorem Fits.of_header (h : Fits .header n) (ha : ¬ n.isAbsent = true) (hv : ∀ ds, n ≠ .var ds) :
    Fits .operand n := by
  refine ⟨?_, h.sorted⟩
  cases n with
  | absent => exact absurd rfl ha
  | unary side _ _ => cases side <;> rfl
  | var ds => exact absurd rfl (hv ds)
  | _ => first | rfl | cases h.admitted

/-- An expression may stand where a statement does. -/
theorem Fits.statement_of_operand (h : Fits .operand n) : Fits .statement n := by
  refine ⟨?_, h.sorted⟩
  cases n with
  | unary side _ _ => cases side <;> rfl
  | _ => first | rfl | cases h.admitted

theorem Fits.to_optionalStatement (h : Fits .statement n) : Fits .optionalStatement n := by
  refine ⟨?_, h.sorted⟩
  cases n with
  | unary side _ _ => cases side <;> rfl
  | _ => first | rfl | cases h.admitted

theorem Fits.to_optional (h : Fits .operand n) : Fits .optional n :=
  ⟨(Bool.or_eq_true _ _).mpr (.inr h.admitted), h.sorted⟩

/-- What heads a loop is a statement before it. -/
theorem Fits.to_statement (h : Fits .header n) (ha : ¬ n.isAbsent = true) : Fits .statement n := by
  refine ⟨?_, h.sorted⟩
  cases n with
  | absent => exact absurd rfl ha
  | unary side _ _ => cases side <;> rfl
  | toplevel _ => cases h.admitted
  | _ => rfl

theorem Fits.to_header (h : Fits .optional n) : Fits .header n := by
  refine ⟨?_, h.sorted⟩
  rcases (Bool.or_eq_true _ _).mp h.admitted with ha | he
  · rw [Position.admits, ha]
    rfl
  · exact (Bool.or_eq_true _ _).mpr (.inr he)

theorem Fits.to_iterator (h : Fits .operand n) : Fits .iterator n := by
  refine ⟨?_, h.sorted⟩
  cases n with
  | var ds => cases h.admitted
  | _ => exact h.admitted

end

theorem wellSorted_of_leaf {n : Node} (h : n.positions = []) : WellSorted n := by
  rw [wellSorted_iff, h]
  exact List.forall_mem_nil _

/-! ## §2. Positions by their number. -/

section

variable {n a b c d : Node} {ns : List Node} {fields : List (String × Node)} {p q r t : Position}

theorem wellSorted_one (h : n.positions = [(p, a)]) : WellSorted n ↔ Fits p a := by
  simp [wellSorted_iff, h]

theorem wellSorted_two (h : n.positions = [(p, a), (q, b)]) :
    WellSorted n ↔ Fits p a ∧ Fits q b := by
  simp [wellSorted_iff, h]

theorem wellSorted_three (h : n.positions = [(p, a), (q, b), (r, c)]) :
    WellSorted n ↔ Fits p a ∧ Fits q b ∧ Fits r c := by
  simp [wellSorted_iff, h]

theorem wellSorted_four (h : n.positions = [(p, a), (q, b), (r, c), (t, d)]) :
    WellSorted n ↔ Fits p a ∧ Fits q b ∧ Fits r c ∧ Fits t d := by
  simp [wellSorted_iff, h]

theorem wellSorted_list (h : n.positions = ns.map (p, ·)) :
    WellSorted n ↔ ∀ m ∈ ns, Fits p m := by
  simp [wellSorted_iff, h]

theorem wellSorted_fields (h : n.positions = fields.map (fun f => (p, f.2))) :
    WellSorted n ↔ ∀ f ∈ fields, Fits p f.2 := by
  rw [wellSorted_iff, h, List.forall_mem_map]

/-- A callee with arguments. -/
theorem wellSorted_applied (h : n.positions = (p, a) :: ns.map (q, ·)) :
    WellSorted n ↔ Fits p a ∧ ∀ m ∈ ns, Fits q m := by
  simp [wellSorted_iff, h]

theorem wellSorted_tryCatch {handler : Option (String × List Node)}
    {finalizer : Option (List Node)} : WellSorted (Node.tryCatch ns handler finalizer) ↔
    (∀ n ∈ ns, Fits .statement n) ∧ (∀ h ∈ handler, ∀ n ∈ h.2, Fits .statement n) ∧
      ∀ f ∈ finalizer, ∀ n ∈ f, Fits .statement n := by
  rw [wellSorted_list rfl]
  cases handler <;> cases finalizer <;> simp [or_imp, forall_and]

theorem wellSorted_switch {cs : List (Node × List Node)} : WellSorted (switch a cs) ↔
    Fits .operand a ∧ ∀ c ∈ cs, Fits .optional c.1 ∧ ∀ n ∈ c.2, Fits .statement n := by
  rw [wellSorted_iff]
  simp only [positions, List.forall_mem_cons, List.forall_mem_flatMap, List.forall_mem_map]

end

/-! ## §3. Deciding. -/

/-- The children of a node are what stands at its positions, empty ones left out. -/
theorem children_eq (n : Node) : n.children = present (n.positions.map (·.2)) := by
  cases n with
  | switch d cs =>
    have clauses : (cs.flatMap (fun c => (Position.optional, c.1) ::
        c.2.map (Position.statement, ·))).map (·.2) = cs.flatMap (fun c => c.1 :: c.2) := by
      rw [List.map_flatMap]
      exact congrArg (fun f => cs.flatMap f) (funext fun c => by simp [Function.comp_def])
    rw [children, positions, List.map_cons, clauses]
  | _ => simp [children, positions, present, Function.comp_def]

theorem everything_eq {n : Node} (hn : n.isAbsent = false) :
    n.everything = n :: n.positions.flatMap (fun p => p.2.everything) := by
  unfold everything
  rw [inspect_eq _ hn rfl, children_eq, flatMap_present_of _ (by rw [inspect]), List.flatMap_map]

theorem sizeOf_lt_of_mem_positions {n : Node} {p : Position × Node} (h : p ∈ n.positions)
    (hp : p.2.isAbsent = false) : sizeOf p.2 < sizeOf n := by
  refine sizeOf_lt_of_mem_children ?_
  rw [children_eq]
  exact List.mem_filter.mpr ⟨List.mem_map_of_mem h, by rw [hp]; rfl⟩

/-- A tree is well-sorted if what stands at the positions of each of its nodes may stand there. -/
theorem wellSorted_iff_everything (n : Node) :
    WellSorted n ↔ ∀ m ∈ n.everything, ∀ p ∈ m.positions, p.1.admits p.2 = true := by
  constructor
  · intro h
    induction h with
    | @intro n admitted _ ih =>
      intro m hm
      cases hn : n.isAbsent with
      | true =>
        cases n <;> cases hn
        cases hm
      | false =>
        rw [everything_eq hn] at hm
        rcases List.mem_cons.mp hm with rfl | hm
        · exact admitted
        · obtain ⟨p, hp, hm⟩ := List.mem_flatMap.mp hm
          exact ih p hp m hm
  · intro h
    cases hn : n.isAbsent with
    | true =>
      cases n <;> cases hn
      exact wellSorted_of_leaf rfl
    | false =>
      rw [everything_eq hn] at h
      refine .intro (h n List.mem_cons_self) fun p hp => ?_
      cases hpn : p.2.isAbsent with
      | true =>
        obtain ⟨position, m⟩ := p
        cases m <;> cases hpn
        exact wellSorted_of_leaf rfl
      | false =>
        have := sizeOf_lt_of_mem_positions hp hpn
        refine (wellSorted_iff_everything p.2).mpr fun m hm => ?_
        exact h m (List.mem_cons_of_mem _ (List.mem_flatMap.mpr ⟨p, hp, hm⟩))
termination_by sizeOf n

instance : DecidablePred WellSorted := fun n =>
  decidable_of_iff _ (wellSorted_iff_everything n).symm

end Node

end Resumable
