/-
  Resumable.Proofs.Sorts.Gaps — positions that nothing stands at.

  A document may leave few positions of a tree empty: the value of a binding, the other side of a
  branch, what heads a loop, a returned value and the test of a clause.  `Filled` says of one node
  that nothing else is missing, `Gapless` of all that a tree holds.

  Both are read off the positions of a root.  The shapes that these come in have a lemma each, for
  any property of what stands there (`forall_one` to `forall_switch`).

  `Complete` is what a document makes sure of besides: a declaration has a name, and an expression
  list has members.  The passes behind the decoder keep a tree gapless, but not complete, for they
  make an empty list of assignments of a `var` without bindings.
-/
import Resumable.Proofs.Sorts.Positions

namespace Resumable

/-- Whether a position may be left empty. -/
def Position.mayBeEmpty : Position → Bool
  | optional | optionalStatement | header => true
  | _ => false

namespace Node

/-! ## §1. What holds of everything in a tree. -/

/-- A property of every node in a tree. -/
def Throughout (P : Node → Prop) (n : Node) : Prop := ∀ m ∈ n.everything, P m

section

variable {P : Node → Prop} {n : Node}

theorem everything_absent : absent.everything = [] := by
  rw [everything, inspect]

theorem throughout_absent : Throughout P absent := by
  rw [Throughout, everything_absent]
  exact List.forall_mem_nil _

/-- A tree has a property throughout if its root has it and what stands at the root's positions
    has it throughout. -/
theorem throughout_iff (hn : n.isAbsent = false) :
    Throughout P n ↔ P n ∧ ∀ p ∈ n.positions, Throughout P p.2 := by
  unfold Throughout
  rw [everything_eq hn, List.forall_mem_cons, List.forall_mem_flatMap]

theorem mem_everything_self (hn : n.isAbsent = false) : n ∈ n.everything := by
  rw [everything_eq hn]
  exact List.mem_cons_self

theorem mem_everything_of_position {m : Node} {p : Position × Node} (hp : p ∈ n.positions)
    (hm : m ∈ p.2.everything) : m ∈ n.everything := by
  have hn : n.isAbsent = false := by
    cases n with
    | absent => cases hp
    | _ => rfl
  rw [everything_eq hn]
  exact List.mem_cons_of_mem _ (List.mem_flatMap.mpr ⟨p, hp, hm⟩)

end

/-- No empty position is among the nodes of a tree. -/
theorem isAbsent_of_mem_everything {n m : Node} (h : m ∈ n.everything) : m.isAbsent = false := by
  cases hn : n.isAbsent with
  | true =>
    cases n <;> cases hn
    rw [everything_absent] at h
    cases h
  | false =>
    rw [everything_eq hn] at h
    rcases List.mem_cons.mp h with rfl | h
    · exact hn
    · obtain ⟨p, hp, hm⟩ := List.mem_flatMap.mp h
      cases hpn : p.2.isAbsent with
      | true =>
        obtain ⟨position, k⟩ := p
        cases k <;> cases hpn
        rw [everything_absent] at hm
        cases hm
      | false =>
        have := sizeOf_lt_of_mem_positions hp hpn
        exact isAbsent_of_mem_everything hm
termination_by sizeOf n

/-! ## §2. What stands at the positions of a root. -/

section

variable {Q : Position × Node → Prop} {n a b c d : Node} {p q r t : Position} {ns : List Node}

theorem forall_one (h : n.positions = [(p, a)]) : (∀ x ∈ n.positions, Q x) ↔ Q (p, a) := by
  simp [h]

theorem forall_two (h : n.positions = [(p, a), (q, b)]) :
    (∀ x ∈ n.positions, Q x) ↔ Q (p, a) ∧ Q (q, b) := by
  simp [h]

theorem forall_three (h : n.positions = [(p, a), (q, b), (r, c)]) :
    (∀ x ∈ n.positions, Q x) ↔ Q (p, a) ∧ Q (q, b) ∧ Q (r, c) := by
  simp [h]

theorem forall_four (h : n.positions = [(p, a), (q, b), (r, c), (t, d)]) :
    (∀ x ∈ n.positions, Q x) ↔ Q (p, a) ∧ Q (q, b) ∧ Q (r, c) ∧ Q (t, d) := by
  simp [h]

theorem forall_list (h : n.positions = ns.map (p, ·)) :
    (∀ x ∈ n.positions, Q x) ↔ ∀ m ∈ ns, Q (p, m) := by
  rw [h, List.forall_mem_map]

theorem forall_fields {fields : List (String × Node)}
    (h : n.positions = fields.map (fun f => (p, f.2))) :
    (∀ x ∈ n.positions, Q x) ↔ ∀ f ∈ fields, Q (p, f.2) := by
  rw [h, List.forall_mem_map]

/-- A callee with arguments. -/
theorem forall_applied (h : n.positions = (.operand, a) :: ns.map (.operand, ·)) :
    (∀ x ∈ n.positions, Q x) ↔ Q (.operand, a) ∧ ∀ m ∈ ns, Q (.operand, m) := by
  rw [h, List.forall_mem_cons, List.forall_mem_map]

theorem forall_tryCatch {body : List Node} {handler : Option (String × List Node)}
    {finalizer : Option (List Node)} :
    (∀ x ∈ (Node.tryCatch body handler finalizer).positions, Q x) ↔
      (∀ m ∈ body, Q (.statement, m)) ∧ (∀ h ∈ handler, ∀ m ∈ h.2, Q (.statement, m)) ∧
        ∀ f ∈ finalizer, ∀ m ∈ f, Q (.statement, m) := by
  rw [forall_list rfl]
  cases handler <;> cases finalizer <;> simp [or_imp, forall_and]

theorem forall_switch {cs : List (Node × List Node)} :
    (∀ x ∈ (switch d cs).positions, Q x) ↔
      Q (.operand, d) ∧ ∀ c ∈ cs, Q (.optional, c.1) ∧ ∀ m ∈ c.2, Q (.statement, m) := by
  simp only [positions, List.forall_mem_cons, List.forall_mem_flatMap, List.forall_mem_map]

end

/-- Only loops have a head. -/
theorem loop_of_isHead (n : Node) : ∀ p ∈ n.positions, p.1.isHead = true →
    (∃ c st b, p.1 = .header ∧ n = forLoop p.2 c st b) ∨
      ∃ o b, p.1 = .iterator ∧ n = forIn p.2 o b := by
  cases n with
  | forLoop i c st b =>
    exact (forall_four rfl).mpr ⟨fun _ => .inl ⟨c, st, b, rfl, rfl⟩, nofun, nofun, nofun⟩
  | forIn i o b => exact (forall_three rfl).mpr ⟨fun _ => .inr ⟨o, b, rfl, rfl⟩, nofun, nofun⟩
  | absent | name _ | num _ | string _ | atom _ | regexp _ _ | breakTo _ | continueTo _
  | debugger => exact List.forall_mem_nil _
  | array _ | seq _ | function _ _ _ | defun _ _ _ | block _ | toplevel _ | splice _
  | tryCatch _ _ _ => exact (forall_list rfl).mpr fun _ _ => nofun
  | object _ | var _ | const _ => exact (forall_fields rfl).mpr fun _ _ => nofun
  | call _ _ | new _ _ => exact (forall_applied rfl).mpr ⟨nofun, fun _ _ => nofun⟩
  | switch _ _ => exact forall_switch.mpr ⟨nofun, fun _ _ => ⟨nofun, fun _ _ => nofun⟩⟩
  | unary _ _ _ | dot _ _ | stat _ | label _ _ | ret _ | throw _ => exact (forall_one rfl).mpr nofun
  | binary _ _ _ | assign _ _ _ | sub _ _ | whileLoop _ _ | doLoop _ _ | withObject _ _ =>
    exact (forall_two rfl).mpr ⟨nofun, nofun⟩
  | conditional _ _ _ | ifElse _ _ _ => exact (forall_three rfl).mpr ⟨nofun, nofun, nofun⟩

/-! ## §3. Gapless trees. -/

/-- Nothing is missing from a node but what may be. -/
def Filled (n : Node) : Prop := ∀ p ∈ n.positions, p.2.isAbsent = true → p.1.mayBeEmpty = true

/-- Nothing is missing from a tree but what may be. -/
def Gapless (n : Node) : Prop := Throughout Filled n

/-- A gapless tree that is there unless its position may be empty. -/
structure Seated (p : Position) (n : Node) : Prop where
  filled : n.isAbsent = true → p.mayBeEmpty = true
  gapless : Gapless n

section

variable {n : Node} {p : Position}

theorem gapless_absent : Gapless absent := throughout_absent

theorem gapless_iff : Gapless n ↔ ∀ p ∈ n.positions, Seated p.1 p.2 := by
  cases hn : n.isAbsent with
  | true =>
    cases n <;> cases hn
    exact iff_of_true gapless_absent (List.forall_mem_nil _)
  | false =>
    rw [Gapless, throughout_iff hn]
    constructor
    · intro h p hp
      exact ⟨h.1 p hp, h.2 p hp⟩
    · intro h
      exact ⟨fun p hp => (h p hp).filled, fun p hp => (h p hp).gapless⟩

theorem gapless_one {a : Node} (h : n.positions = [(p, a)]) : Gapless n ↔ Seated p a := by
  rw [gapless_iff, forall_one h]

theorem gapless_two {a b : Node} {q : Position} (h : n.positions = [(p, a), (q, b)]) :
    Gapless n ↔ Seated p a ∧ Seated q b := by
  rw [gapless_iff, forall_two h]

theorem gapless_three {a b c : Node} {q r : Position}
    (h : n.positions = [(p, a), (q, b), (r, c)]) :
    Gapless n ↔ Seated p a ∧ Seated q b ∧ Seated r c := by
  rw [gapless_iff, forall_three h]

theorem gapless_four {a b c d : Node} {q r t : Position}
    (h : n.positions = [(p, a), (q, b), (r, c), (t, d)]) :
    Gapless n ↔ Seated p a ∧ Seated q b ∧ Seated r c ∧ Seated t d := by
  rw [gapless_iff, forall_four h]

theorem gapless_list {ns : List Node} (h : n.positions = ns.map (p, ·)) :
    Gapless n ↔ ∀ m ∈ ns, Seated p m := by
  rw [gapless_iff, forall_list h]

theorem gapless_fields {fields : List (String × Node)}
    (h : n.positions = fields.map (fun f => (p, f.2))) :
    Gapless n ↔ ∀ f ∈ fields, Seated p f.2 := by
  rw [gapless_iff, forall_fields h]

theorem gapless_applied {c : Node} {as : List Node}
    (h : n.positions = (.operand, c) :: as.map (.operand, ·)) :
    Gapless n ↔ Seated .operand c ∧ ∀ a ∈ as, Seated .operand a := by
  rw [gapless_iff, forall_applied h]

theorem Gapless.seated (h : Gapless n) (hn : n.isAbsent = false) : Seated p n :=
  ⟨fun ha => absurd ha (by rw [hn]; exact Bool.false_ne_true), h⟩

theorem Seated.present (h : Seated p n) (hp : p.mayBeEmpty = false) : n.isAbsent = false := by
  cases hn : n.isAbsent with
  | false => rfl
  | true => rw [h.filled hn] at hp; cases hp

/-- What may stand at a position is there, unless the position may be empty. -/
theorem mayBeEmpty_of_admits (h : p.admits n = true) (hn : n.isAbsent = true) :
    p.mayBeEmpty = true := by
  cases n <;> cases hn
  cases p <;> first | rfl | cases h

/-- A well-sorted tree has no gaps. -/
theorem Fits.seated (h : Fits p n) : Seated p n := by
  refine ⟨mayBeEmpty_of_admits h.admitted, fun m hm q hq => ?_⟩
  exact mayBeEmpty_of_admits ((wellSorted_iff_everything n).mp h.sorted m hm q hq)

end

/-! ## §4. Complete trees. -/

/-- Whether a node has what has to be there besides nodes: a function declaration its name, an
    expression list a member. -/
def substantial : Node → Bool
  | defun f _ _ => f != ""
  | seq es => !es.isEmpty
  | _ => true

/-- What a document makes sure of for each node. -/
structure Formed (n : Node) : Prop where
  /-- Nothing is missing but what may be; so a loop has a body, and no list a gap. -/
  filled : Filled n
  substantial : n.substantial = true

/-- A node that is there and formed, with everything in it. -/
structure Complete (n : Node) : Prop where
  present : n.isAbsent = false
  formed : Throughout Formed n

instance (n : Node) : Decidable (Filled n) :=
  inferInstanceAs (Decidable (∀ p ∈ n.positions, p.2.isAbsent = true → p.1.mayBeEmpty = true))

instance (n : Node) : Decidable (Formed n) :=
  decidable_of_iff (Filled n ∧ n.substantial = true)
    ⟨fun h => ⟨h.1, h.2⟩, fun h => ⟨h.filled, h.substantial⟩⟩

instance (n : Node) : Decidable n.Complete :=
  decidable_of_iff (n.isAbsent = false ∧ ∀ m ∈ n.everything, Formed m)
    ⟨fun h => ⟨h.1, h.2⟩, fun h => ⟨h.present, h.formed⟩⟩

/-- A position holds a complete tree, or nothing where it may. -/
def Fills (p : Position) (n : Node) : Prop := n.Complete ∨ n = absent ∧ p.mayBeEmpty = true

section

variable {n : Node}

theorem Complete.gapless (h : n.Complete) : Gapless n := fun m hm => (h.formed m hm).filled

theorem complete_iff :
    n.Complete ↔ n.isAbsent = false ∧ n.substantial = true ∧ ∀ p ∈ n.positions, Fills p.1 p.2 := by
  constructor
  · intro h
    obtain ⟨hroot, hinner⟩ := (throughout_iff h.present).mp h.formed
    refine ⟨h.present, hroot.substantial, fun p hp => ?_⟩
    cases hpn : p.2.isAbsent with
    | false => exact .inl ⟨hpn, hinner p hp⟩
    | true =>
      refine .inr ⟨?_, hroot.filled p hp hpn⟩
      obtain ⟨position, m⟩ := p
      cases m <;> cases hpn
      rfl
  · rintro ⟨hn, hs, h⟩
    refine ⟨hn, (throughout_iff hn).mpr ⟨⟨fun p hp hpn => ?_, hs⟩, fun p hp => ?_⟩⟩
    · rcases h p hp with hc | ⟨-, hmay⟩
      · rw [hc.present] at hpn
        cases hpn
      · exact hmay
    · rcases h p hp with hc | ⟨hm, -⟩
      · exact hc.formed
      · rw [hm]
        exact throughout_absent

theorem fills_iff {p : Position} (hp : p.mayBeEmpty = false) : Fills p n ↔ n.Complete := by
  simp [Fills, hp]

theorem fills_optional_iff {p : Position} (hp : p.mayBeEmpty = true) :
    Fills p n ↔ n = absent ∨ n.Complete := by
  simp [Fills, hp, or_comm]

end

section

variable {n a b c d : Node} {p q r t : Position} {ns : List Node} {fields : List (String × Node)}
  (hn : n.isAbsent = false) (hs : n.substantial = true)
include hn hs

theorem complete_iff_positions : n.Complete ↔ ∀ x ∈ n.positions, Fills x.1 x.2 := by
  simp only [complete_iff, hn, hs, true_and]

theorem Complete.of_leaf (h : n.positions = []) : n.Complete :=
  (complete_iff_positions hn hs).mpr (by rw [h]; exact List.forall_mem_nil _)

theorem complete_one (h : n.positions = [(p, a)]) : n.Complete ↔ Fills p a :=
  (complete_iff_positions hn hs).trans (forall_one h)

theorem complete_two (h : n.positions = [(p, a), (q, b)]) :
    n.Complete ↔ Fills p a ∧ Fills q b :=
  (complete_iff_positions hn hs).trans (forall_two h)

theorem complete_three (h : n.positions = [(p, a), (q, b), (r, c)]) :
    n.Complete ↔ Fills p a ∧ Fills q b ∧ Fills r c :=
  (complete_iff_positions hn hs).trans (forall_three h)

theorem complete_four (h : n.positions = [(p, a), (q, b), (r, c), (t, d)]) :
    n.Complete ↔ Fills p a ∧ Fills q b ∧ Fills r c ∧ Fills t d :=
  (complete_iff_positions hn hs).trans (forall_four h)

theorem complete_list (h : n.positions = ns.map (p, ·)) (hp : p.mayBeEmpty = false) :
    n.Complete ↔ ∀ m ∈ ns, m.Complete := by
  rw [complete_iff_positions hn hs, forall_list h]
  simp only [fills_iff hp]

theorem complete_fields (h : n.positions = fields.map (fun f => (p, f.2))) :
    n.Complete ↔ ∀ f ∈ fields, Fills p f.2 :=
  (complete_iff_positions hn hs).trans (forall_fields h)

theorem complete_applied (h : n.positions = (.operand, a) :: ns.map (.operand, ·)) :
    n.Complete ↔ a.Complete ∧ ∀ m ∈ ns, m.Complete := by
  have operand (m : Node) : Fills .operand m ↔ m.Complete := fills_iff rfl
  rw [complete_iff_positions hn hs, forall_applied h]
  simp only [operand]

end

theorem complete_tryCatch {body : List Node} {handler : Option (String × List Node)}
    {finalizer : Option (List Node)} : (Node.tryCatch body handler finalizer).Complete ↔
    (∀ n ∈ body, n.Complete) ∧ (∀ h ∈ handler, ∀ n ∈ h.2, n.Complete) ∧
      ∀ f ∈ finalizer, ∀ n ∈ f, n.Complete := by
  have statement (m : Node) : Fills .statement m ↔ m.Complete := fills_iff rfl
  rw [complete_iff_positions rfl rfl, forall_tryCatch]
  simp only [statement]

theorem complete_switch {d : Node} {cs : List (Node × List Node)} : (switch d cs).Complete ↔
    d.Complete ∧ ∀ c ∈ cs, Fills .optional c.1 ∧ ∀ n ∈ c.2, n.Complete := by
  have operand (m : Node) : Fills .operand m ↔ m.Complete := fills_iff rfl
  have statement (m : Node) : Fills .statement m ↔ m.Complete := fills_iff rfl
  rw [complete_iff_positions rfl rfl, forall_switch]
  simp only [operand, statement]

end Node

end Resumable
