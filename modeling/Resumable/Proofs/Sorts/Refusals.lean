/-
  Resumable.Proofs.Sorts.Refusals — failures name a node that is there.

  A document may put a statement where a value is asked for, so a unit that was read can still be
  refused: by the walk, by the printer, or by the payloads' printer.  But it never has a gap where
  something is asked for.  So the walk ends at a node of the unit, and what the printer does not
  take for an expression is a node of some kind.

  Main statement: `reading_leaves_no_gaps`.
-/
import Resumable.Proofs.Document.Reading
import Resumable.Proofs.Sorts.Filling
import Resumable.Proofs.Walk.Faults

namespace Resumable

namespace Node

open Program (Fault)

/-! ## §1. Faults of gapless trees. -/

theorem operandFaults_eq (ns : List Node) : operandFaults ns = ns.flatMap exprFaults := by
  induction ns with
  | nil => rfl
  | cons n ns ih => rw [operandFaults, ih, List.flatMap_cons]

theorem fieldFaults_eq (ps : List (String × Node)) :
    fieldFaults ps = ps.flatMap (fun p => exprFaults p.2) := by
  induction ps with
  | nil => rfl
  | cons p ps ih => rw [fieldFaults, ih, List.flatMap_cons]

theorem faultsAll_eq (ns : List Node) : faultsAll ns = ns.flatMap faults := by
  induction ns with
  | nil => rfl
  | cons n ns ih => rw [faultsAll, ih, List.flatMap_cons]

/-- A fault of an expression is the expression itself, or one of what has to stand in it. -/
theorem mem_exprFaults {n : Node} {f : Fault} (h : f ∈ exprFaults n) : f = .misplaced n ∨
    ∃ p ∈ n.positions, p.1.mayBeEmpty = false ∧ (f ∈ exprFaults p.2 ∨ f = .target p.2) := by
  cases n with
  | name _ | num _ | string _ | atom _ | regexp _ _ | conditional _ _ _ | seq _ | function _ _ _ =>
    cases h
  | call c as | new c as =>
    rw [exprFaults, operandFaults_eq, List.mem_append, List.mem_flatMap] at h
    rcases h with h | ⟨a, ha, h⟩
    · exact .inr ⟨(.operand, c), List.mem_cons_self, rfl, .inl h⟩
    · have hmem : (Position.operand, a) ∈ as.map (Position.operand, ·) := List.mem_map_of_mem ha
      exact .inr ⟨(.operand, a), List.mem_cons_of_mem _ hmem, rfl, .inl h⟩
  | unary _ _ a | dot a _ => exact .inr ⟨(.operand, a), List.mem_cons_self, rfl, .inl h⟩
  | binary _ a b | sub a b =>
    rcases List.mem_append.mp h with h | h
    · exact .inr ⟨(.operand, a), List.mem_cons_self, rfl, .inl h⟩
    · exact .inr ⟨(.operand, b), List.mem_cons_of_mem _ List.mem_cons_self, rfl, .inl h⟩
  | assign _ t v =>
    rcases List.mem_append.mp h with h | h
    · refine .inr ⟨(.target, t), List.mem_cons_self, rfl, ?_⟩
      unfold targetFaults at h
      split at h
      · exact .inl h
      · exact .inr (List.mem_singleton.mp h)
    · exact .inr ⟨(.operand, v), List.mem_cons_of_mem _ List.mem_cons_self, rfl, .inl h⟩
  | array es =>
    rw [exprFaults, operandFaults_eq] at h
    obtain ⟨e, he, h⟩ := List.mem_flatMap.mp h
    exact .inr ⟨(.operand, e), List.mem_map_of_mem he, rfl, .inl h⟩
  | object ps =>
    rw [exprFaults, fieldFaults_eq] at h
    obtain ⟨p, hp, h⟩ := List.mem_flatMap.mp h
    exact .inr ⟨(.operand, p.2), List.mem_map.mpr ⟨p, hp, rfl⟩, rfl, .inl h⟩
  | _ => exact .inl (List.mem_singleton.mp h)

/-- A fault of a statement is one of an expression, or one of a statement in it. -/
theorem mem_faults {n : Node} {f : Fault} (h : f ∈ faults n) : f ∈ exprFaults n ∨
    ∃ p ∈ n.positions, (p.1.mayBeEmpty = false ∨ p.2.isAbsent = false) ∧
      (f ∈ exprFaults p.2 ∨ f ∈ faults p.2) := by
  have part {m : Node} {fs : List Fault} (h : f ∈ unlessAbsent m fs) :
      m.isAbsent = false ∧ f ∈ fs := by
    unfold unlessAbsent at h
    split at h
    · cases h
    · next hm => exact ⟨Bool.eq_false_iff.mpr hm, h⟩
  cases n with
  | stat e => exact .inr ⟨(.operand, e), List.mem_cons_self, .inl rfl, .inl h⟩
  | var ds =>
    obtain ⟨d, hd, h⟩ := List.mem_flatMap.mp h
    obtain ⟨hpresent, h⟩ := part h
    exact .inr ⟨(.optional, d.2), List.mem_map.mpr ⟨d, hd, rfl⟩, .inr hpresent, .inl h⟩
  | block b | splice b | defun _ _ b =>
    rw [faults, faultsAll_eq] at h
    obtain ⟨m, hm, h⟩ := List.mem_flatMap.mp h
    exact .inr ⟨(.statement, m), List.mem_map_of_mem hm, .inl rfl, .inr h⟩
  | ifElse c y e =>
    rw [faults, List.mem_append, List.mem_append] at h
    rcases h with (h | h) | h
    · exact .inr ⟨(.operand, c), by simp [positions], .inl rfl, .inl h⟩
    · exact .inr ⟨(.statement, y), by simp [positions], .inl rfl, .inr (part h).2⟩
    · obtain ⟨hpresent, h⟩ := part h
      exact .inr ⟨(.optionalStatement, e), by simp [positions], .inr hpresent, .inr h⟩
  | forLoop i c s b =>
    rw [faults, List.mem_append, List.mem_append, List.mem_append] at h
    rcases h with ((h | h) | h) | h
    all_goals obtain ⟨hpresent, h⟩ := part h
    · exact .inr ⟨(.header, i), by simp [positions], .inr hpresent, .inr h⟩
    · exact .inr ⟨(.optional, c), by simp [positions], .inr hpresent, .inl h⟩
    · exact .inr ⟨(.optional, s), by simp [positions], .inr hpresent, .inl h⟩
    · exact .inr ⟨(.statement, b), by simp [positions], .inr hpresent, .inr h⟩
  | breakTo _ | continueTo _ | debugger | label _ _ | whileLoop _ _ | doLoop _ _ | tryCatch _ _ _
  | throw _ | switch _ _ | forIn _ _ _ | withObject _ _ | ret _ | const _ => cases h
  | _ => exact .inl h

theorem exprFaults_present {n : Node} (h : Gapless n) (hn : n.isAbsent = false) :
    ∀ f ∈ exprFaults n, f.node ∈ n.everything := by
  intro f hf
  rcases mem_exprFaults hf with rfl | ⟨p, hp, hmay, hf⟩
  · exact mem_everything_self hn
  · have hseated := gapless_iff.mp h p hp
    have hpresent := hseated.present hmay
    rcases hf with hf | rfl
    · have := sizeOf_lt_of_mem_positions hp hpresent
      exact mem_everything_of_position hp (exprFaults_present hseated.gapless hpresent f hf)
    · exact mem_everything_of_position hp (mem_everything_self hpresent)
termination_by sizeOf n

/-- The faults of a gapless tree are among its nodes. -/
theorem faults_present {n : Node} (h : Gapless n) (hn : n.isAbsent = false) :
    ∀ f ∈ faults n, f.node ∈ n.everything := by
  intro f hf
  rcases mem_faults hf with hf | ⟨p, hp, hpart, hf⟩
  · exact exprFaults_present h hn f hf
  · have hseated := gapless_iff.mp h p hp
    have hpresent : p.2.isAbsent = false := hpart.elim hseated.present id
    refine mem_everything_of_position hp ?_
    rcases hf with hf | hf
    · exact exprFaults_present hseated.gapless hpresent f hf
    · have := sizeOf_lt_of_mem_positions hp hpresent
      exact faults_present hseated.gapless hpresent f hf
termination_by sizeOf n

/-- A node that is there has a kind, by which failures name it. -/
theorem exists_kind {n : Node} (hn : n.isAbsent = false) :
    ∃ k, n.kind? = some k ∧ n.tag = k.tag := by
  unfold tag
  cases hk : n.kind? with
  | some k => exact ⟨k, rfl, rfl⟩
  | none =>
    rw [kind?_eq_none] at hk
    rw [hk] at hn
    cases hn

end Node

/-! ## §2. What the printer refuses. -/

/-- A gapless tree whose nodes have a property, there unless its position may be empty. -/
structure Node.Holds (P : Node → Prop) (p : Position) (n : Node) : Prop where
  seated : Seated p n
  throughout : Throughout P n

/-- So are the trees at the positions of a node. -/
abbrev Node.PartsHold (P : Node → Prop) (n : Node) : Prop :=
  ∀ x ∈ n.positions, Holds P x.1 x.2

namespace Node.Holds

variable {P : Node → Prop} {p : Position} {n : Node}

theorem parts (h : Holds P p n) : PartsHold P n := by
  intro x hx
  refine ⟨gapless_iff.mp h.seated.gapless x hx, fun m hm => h.throughout m ?_⟩
  exact mem_everything_of_position hx hm

/-- What is there may stand anywhere. -/
theorem of_present (h : Holds P p n) (hn : n.isAbsent = false) : Holds P .operand n :=
  ⟨h.seated.gapless.seated hn, h.throughout⟩

theorem present (h : Holds P p n) (hp : p.mayBeEmpty = false) : n.isAbsent = false :=
  h.seated.present hp

theorem root (h : Holds P p n) (hn : n.isAbsent = false) : P n :=
  h.throughout n (mem_everything_self hn)

end Node.Holds

namespace Source

open Layout (ofText)
open Node (Gapless Holds PartsHold forall_one forall_two forall_three forall_four forall_list
  forall_fields forall_applied forall_tryCatch forall_switch)

/-- The refusal, as an expression, of a node with a property. -/
def RefusedNode (P : Node → Prop) (e : Failure) : Prop :=
  ∃ m k, P m ∧ m.kind? = some k ∧ e = .invalidNode .render [] k.tag "not an expression"

/-- A text or a refusal of a node with a property. -/
def Blames {α : Type} (P : Node → Prop) (r : Except Failure α) : Prop :=
  ∀ e, r = .error e → RefusedNode P e

namespace Blames

variable {α β : Type} {P : Node → Prop} {r : Except Failure α}

theorem pure (a : α) : Blames P (Pure.pure a) := nofun

theorem bind {f : α → Except Failure β} (h : Blames P r) (hf : ∀ a, Blames P (f a)) :
    Blames P (r >>= f) := by
  intro e he
  rcases bind_eq_error he with he | ⟨a, -, he⟩
  · exact h e he
  · exact hf a e he

theorem map {f : α → β} (h : Blames P r) : Blames P (f <$> r) := by
  intro e he
  cases r with
  | error e' =>
    cases he
    exact h e rfl
  | ok a => cases he

end Blames

variable {P : Node → Prop} {n : Node} {p : Position} {depth least : Nat}
  {form : Except Failure Layout}

theorem asOperand_blames (h : Holds P p n) (hp : p.mayBeEmpty = false)
    (hf : PartsHold P n → Blames P form) : Blames P (asOperand least n form) := by
  unfold asOperand
  split
  · exact .bind (hf h.parts) fun _ => .pure _
  · intro e he
    cases he
    have hpresent := h.present hp
    obtain ⟨k, hkind, htag⟩ := Node.exists_kind hpresent
    exact ⟨n, k, h.root hpresent, hkind, by rw [htag]⟩

theorem asStatement_blames (hn : n.isAbsent = false) (hf : Blames P form) :
    Blames P (asStatement n form) := by
  unfold asStatement
  split
  · cases hn
  · exact .bind hf fun _ => .pure _
  · exact .bind hf fun _ => .pure _
  · split
    · exact .bind hf fun _ => .pure _
    · exact hf

theorem asOptional_blames (h : Holds P p n) (hf : PartsHold P n → Blames P form) :
    Blames P (asOptional n form) := by
  unfold asOptional
  split
  · exact .pure _
  · next hn =>
    have hpresent : n.isAbsent = false :=
      Bool.eq_false_iff.mpr fun ha => hn (Node.isAbsent_eq_true_iff.mp ha)
    exact asOperand_blames (h.of_present hpresent) rfl hf

theorem asHeader_blames (h : Holds P p n) (hf : PartsHold P n → Blames P form) :
    Blames P (asHeader n form) := by
  unfold asHeader
  split
  · exact .pure _
  · exact hf h.parts
  · next hn _ =>
    have hpresent : n.isAbsent = false :=
      Bool.eq_false_iff.mpr fun ha => hn (Node.isAbsent_eq_true_iff.mp ha)
    exact asOperand_blames (h.of_present hpresent) rfl hf

mutual

/-- A gapless tree is refused only for a node of some kind. -/
theorem form_blames (depth : Nat) (asBody : Bool) (n : Node) (h : PartsHold P n) :
    Blames P (Source.form depth asBody n) := by
  cases n with
  | absent | name _ | num _ | string _ | atom _ | regexp _ _ | breakTo _ | continueTo _
  | debugger =>
    rw [Source.form]
    exact .pure _
  | array es | seq es =>
    rw [Source.form]
    exact .bind (operands_blames depth es ((forall_list rfl).mp h)) fun _ => .pure _
  | object ps =>
    rw [Source.form]
    exact .bind (properties_blames depth ps ((forall_fields rfl).mp h)) fun _ => .pure _
  | var ds | const ds =>
    rw [Source.form]
    exact .bind (bindings_blames depth ds ((forall_fields rfl).mp h)) fun _ => .pure _
  | call c as | new c as =>
    obtain ⟨hc, has⟩ := (forall_applied rfl).mp h
    rw [Source.form]
    exact .bind (asOperand_blames hc rfl (form_blames depth false c)) fun _ =>
      .bind (operands_blames depth as has) fun _ => .pure _
  | binary _ a b | assign _ a b | sub a b =>
    obtain ⟨ha, hb⟩ := (forall_two rfl).mp h
    rw [Source.form]
    exact .bind (asOperand_blames ha rfl (form_blames depth false a)) fun _ =>
      .bind (asOperand_blames hb rfl (form_blames depth false b)) fun _ => .pure _
  | unary side op a =>
    have ha := (forall_one rfl).mp h
    cases side <;> rw [Source.form] <;>
      exact .bind (asOperand_blames ha rfl (form_blames depth false a)) fun _ => .pure _
  | dot a _ | stat a | throw a =>
    have ha := (forall_one rfl).mp h
    rw [Source.form]
    exact .bind (asOperand_blames ha rfl (form_blames depth false a)) fun _ => .pure _
  | conditional a b c =>
    obtain ⟨ha, hb, hc⟩ := (forall_three rfl).mp h
    rw [Source.form]
    exact .bind (asOperand_blames ha rfl (form_blames depth false a)) fun _ =>
      .bind (asOperand_blames hb rfl (form_blames depth false b)) fun _ =>
      .bind (asOperand_blames hc rfl (form_blames depth false c)) fun _ => .pure _
  | function _ _ b | defun _ _ b | block b =>
    rw [Source.form]
    exact .bind (statements_blames (depth + 1) b ((forall_list rfl).mp h)) fun _ => .pure _
  | toplevel b =>
    rw [Source.form]
    exact .bind (statements_blames depth b ((forall_list rfl).mp h)) fun _ => .pure _
  | splice ns =>
    have hns := (forall_list rfl).mp h
    rw [Source.form]
    split
    · exact .bind (statements_blames (depth + 1) ns hns) fun _ => .pure _
    · exact .bind (statements_blames depth ns hns) fun _ => .pure _
  | ifElse c y e =>
    obtain ⟨hc, hy, he⟩ := (forall_three rfl).mp h
    have hyes := hy.present rfl
    rw [Source.form]
    refine .bind (asOperand_blames hc rfl (form_blames depth false c)) fun cond => ?_
    -- the first side is put into a block where it could take the `else`; the rest is the same
    have hrest : ∀ yes, Blames P (do
        let no ←
          if e.isAbsent then .ok []
          else (ofText " else " ++ ·) <$> asStatement e (Source.form depth true e)
        return ofText "if (" ++ cond ++ ofText ") " ++ yes ++ no) := by
      intro yes
      dsimp only
      split
      · exact .bind (.pure _) fun _ => .pure _
      · next ha =>
        have hno :=
          asStatement_blames (Bool.eq_false_iff.mpr ha) (form_blames depth true e he.parts)
        exact .bind (.map hno) fun _ => .pure _
    dsimp only
    split
    · exact .bind (.map (asStatement_blames hyes (form_blames (depth + 1) false y hy.parts))) hrest
    · exact .bind (asStatement_blames hyes (form_blames depth true y hy.parts)) hrest
  | forLoop i c s b =>
    obtain ⟨hi, hc, hs, hb⟩ := (forall_four rfl).mp h
    rw [Source.form]
    exact .bind (asHeader_blames hi (form_blames depth false i)) fun _ =>
      .bind (asOptional_blames hc (form_blames depth false c)) fun _ =>
      .bind (asOptional_blames hs (form_blames depth false s)) fun _ =>
      .bind (asStatement_blames (hb.present rfl) (form_blames depth true b hb.parts)) fun _ =>
      .pure _
  | forIn i o b =>
    obtain ⟨hi, ho, hb⟩ := (forall_three rfl).mp h
    have hinit := form_blames depth false i
    have hrest : ∀ init, Blames P (do
        let object ← asOperand Precedence.lowest o (Source.form depth false o)
        let body ← asStatement b (Source.form depth true b)
        return ofText "for (" ++ init ++ ofText " in " ++ object ++ ofText ") " ++ body) := fun _ =>
      .bind (asOperand_blames ho rfl (form_blames depth false o)) fun _ =>
      .bind (asStatement_blames (hb.present rfl) (form_blames depth true b hb.parts)) fun _ =>
      .pure _
    cases i with
    | var ds =>
      rw [Source.form]
      exact .bind (hinit hi.parts) hrest
    | _ => exact .bind (asOperand_blames hi rfl hinit) hrest
  | whileLoop c b | withObject c b =>
    obtain ⟨hc, hb⟩ := (forall_two rfl).mp h
    rw [Source.form]
    exact .bind (asOperand_blames hc rfl (form_blames depth false c)) fun _ =>
      .bind (asStatement_blames (hb.present rfl) (form_blames depth true b hb.parts)) fun _ =>
      .pure _
  | doLoop c b =>
    obtain ⟨hb, hc⟩ := (forall_two rfl).mp h
    rw [Source.form]
    exact .bind (asStatement_blames (hb.present rfl) (form_blames depth true b hb.parts)) fun _ =>
      .bind (asOperand_blames hc rfl (form_blames depth false c)) fun _ => .pure _
  | label l b =>
    have hb := (forall_one rfl).mp h
    rw [Source.form]
    exact .bind (asStatement_blames (hb.present rfl) (form_blames depth false b hb.parts)) fun _ =>
      .pure _
  | ret v =>
    have hv := (forall_one rfl).mp h
    rw [Source.form]
    split
    · exact .pure _
    · next ha =>
      have hv' : Holds P .operand v := hv.of_present (Bool.eq_false_iff.mpr ha)
      exact .bind (asOperand_blames hv' rfl (form_blames depth false v)) fun _ => .pure _
  | tryCatch b hd f =>
    obtain ⟨hb, hhd, hf⟩ := forall_tryCatch.mp h
    rw [Source.form]
    exact .bind (statements_blames (depth + 1) b hb) fun _ =>
      .bind (catchClause_blames depth hd hhd) fun _ =>
      .bind (finallyClause_blames depth f hf) fun _ => .pure _
  | switch d cs =>
    obtain ⟨hd, hcs⟩ := forall_switch.mp h
    rw [Source.form]
    exact .bind (asOperand_blames hd rfl (form_blames depth false d)) fun _ =>
      .bind (switchClauses_blames (depth + 1) cs hcs) fun _ => .pure _
termination_by structural n

theorem operands_blames (depth : Nat) (ns : List Node) (h : ∀ n ∈ ns, Holds P .operand n) :
    Blames P (operands depth ns) := by
  cases ns with
  | nil =>
    rw [operands]
    exact .pure _
  | cons n ns =>
    obtain ⟨hn, hns⟩ := List.forall_mem_cons.mp h
    rw [operands]
    exact .bind (asOperand_blames hn rfl (form_blames depth false n)) fun _ =>
      .bind (operands_blames depth ns hns) fun _ => .pure _
termination_by structural ns

theorem properties_blames (depth : Nat) (ps : List (String × Node))
    (h : ∀ p ∈ ps, Holds P .operand p.2) : Blames P (properties depth ps) := by
  cases ps with
  | nil =>
    rw [properties]
    exact .pure _
  | cons p ps =>
    obtain ⟨hn, hps⟩ := List.forall_mem_cons.mp h
    obtain ⟨k, n⟩ := p
    rw [properties]
    exact .bind (asOperand_blames hn rfl (form_blames depth false n)) fun _ =>
      .bind (properties_blames depth ps hps) fun _ => .pure _
termination_by structural ps

theorem bindings_blames (depth : Nat) (ds : List (String × Node))
    (h : ∀ d ∈ ds, Holds P .optional d.2) : Blames P (bindings depth ds) := by
  cases ds with
  | nil =>
    rw [bindings]
    exact .pure _
  | cons d ds =>
    obtain ⟨hn, hds⟩ := List.forall_mem_cons.mp h
    obtain ⟨x, n⟩ := d
    rw [bindings]
    have hrest : ∀ first, Blames P (do return first :: (← bindings depth ds)) := fun _ =>
      .bind (bindings_blames depth ds hds) fun _ => .pure _
    dsimp only
    split
    · exact .bind (.pure _) hrest
    · next ha =>
      have hn' : Holds P .operand n := hn.of_present (Bool.eq_false_iff.mpr ha)
      exact .bind (.map (asOperand_blames hn' rfl (form_blames depth false n))) hrest
termination_by structural ds

theorem statements_blames (depth : Nat) (ns : List Node) (h : ∀ n ∈ ns, Holds P .statement n) :
    Blames P (statements depth ns) := by
  cases ns with
  | nil =>
    rw [statements]
    exact .pure _
  | cons n ns =>
    obtain ⟨hn, hns⟩ := List.forall_mem_cons.mp h
    have hrest := statements_blames depth ns hns
    cases n with
    | absent => cases hn.present rfl
    | splice ms =>
      -- the statements of a splice stand in its place
      rw [statements]
      exact .bind (statements_blames depth ms ((forall_list rfl).mp hn.parts)) fun _ =>
        .bind hrest fun _ => .pure _
    | _ =>
      exact .bind (asStatement_blames rfl (form_blames depth false _ hn.parts)) fun _ =>
        .bind hrest fun _ => .pure _
termination_by structural ns

theorem catchClause_blames (depth : Nat) (handler : Option (String × List Node))
    (h : ∀ c ∈ handler, ∀ n ∈ c.2, Holds P .statement n) :
    Blames P (catchClause depth handler) := by
  cases handler with
  | none =>
    rw [catchClause]
    exact .pure _
  | some c =>
    obtain ⟨x, body⟩ := c
    rw [catchClause]
    exact .bind (statements_blames (depth + 1) body (h _ rfl)) fun _ => .pure _
termination_by structural handler

theorem finallyClause_blames (depth : Nat) (finalizer : Option (List Node))
    (h : ∀ f ∈ finalizer, ∀ n ∈ f, Holds P .statement n) :
    Blames P (finallyClause depth finalizer) := by
  cases finalizer with
  | none =>
    rw [finallyClause]
    exact .pure _
  | some body =>
    rw [finallyClause]
    exact .bind (statements_blames (depth + 1) body (h _ rfl)) fun _ => .pure _
termination_by structural finalizer

theorem switchClauses_blames (depth : Nat) (cs : List (Node × List Node))
    (h : ∀ c ∈ cs, Holds P .optional c.1 ∧ ∀ n ∈ c.2, Holds P .statement n) :
    Blames P (switchClauses depth cs) := by
  cases cs with
  | nil =>
    rw [switchClauses]
    exact .pure _
  | cons c cs =>
    obtain ⟨⟨ht, hbody⟩, hcs⟩ := List.forall_mem_cons.mp h
    obtain ⟨t, body⟩ := c
    rw [switchClauses]
    have hrest : ∀ head, Blames P (do
        let items ← statements (depth + 1) body
        let others ← switchClauses depth cs
        return .line depth :: head ++ Layout.hanging (depth + 1) items ++ others) := fun _ =>
      .bind (statements_blames (depth + 1) body hbody) fun _ =>
        .bind (switchClauses_blames depth cs hcs) fun _ => .pure _
    dsimp only
    split
    · exact .bind (.pure _) hrest
    · next ha =>
      have ht' : Holds P .operand t := ht.of_present (Bool.eq_false_iff.mpr ha)
      exact .bind (.map (asOperand_blames ht' rfl (form_blames depth false t))) hrest
termination_by structural cs

end

/-- A tree that is there has a text, or there is a node in it that is refused. -/
theorem render_blames (st : Style) (h : Holds P p n) (hn : n.isAbsent = false) :
    Blames P (render st n) := by
  unfold render layout
  rw [hn, if_neg Bool.false_ne_true]
  refine .bind ?_ fun _ => .pure _
  split
  · exact form_blames 0 false n h.parts
  · have hstatement : Holds P .statement n := ⟨h.seated.gapless.seated hn, h.throughout⟩
    refine .bind (statements_blames 0 [n] ?_) fun _ => .pure _
    exact List.forall_mem_singleton.mpr hstatement

theorem render_refuses (st : Style) (h : Gapless n) (hn : n.isAbsent = false) :
    Blames (· ∈ n.everything) (render st n) :=
  render_blames (p := .statement) st ⟨h.seated hn, fun _ hm => hm⟩ hn

end Source

/-! ## §3. Whole units. -/

namespace Program

open Node (Gapless Seated)
open Source (RefusedNode)

/-- The report of a walk on a node of a unit that it can do nothing with. -/
def StoppedAt (unit : Node) (e : Failure) : Prop :=
  ∃ path m k, m ∈ unit.everything ∧ m.kind? = some k ∧
    (e = .unknownNode .transform path k.tag ∨ e = .invalidTarget path k.tag)

/-- The report on a payload of a program in which there is a node that the printer refuses. -/
def RefusedPayload (program : List Instr) (e : Failure) : Prop :=
  ∃ path i n k cause, i ∈ Instr.walkAll program ∧ n ∈ i.payloads ∧ n.kind? = some k ∧
    RefusedNode (· ∈ n.everything) cause ∧
    e = .report { phase := .serialize, category := .encode, path, node := k.tag } (some cause)

variable {naming : Naming} {isAsync : String → Bool} {e : Failure}

/-- The walk of a gapless unit ends at a node that is there. -/
theorem transform_stops {body : List Node} (h : Gapless (.toplevel body))
    (he : (transform naming isAsync (.toplevel body)).1 = .error e) :
    StoppedAt (.toplevel body) e := by
  have hends := transform_ends naming isAsync body
  cases hfaults : Node.faultsAll body with
  | nil =>
    rw [hfaults] at hends
    obtain ⟨t, ht⟩ := hends
    rw [ht] at he
    cases he
  | cons f fs =>
    rw [hfaults] at hends
    obtain ⟨path, hf⟩ := hends
    rw [hf] at he
    cases he
    -- the report is on the first fault, and the faults of a gapless tree are among its nodes
    have hmem : f ∈ body.flatMap Node.faults := by
      rw [← Node.faultsAll_eq, hfaults]
      exact List.mem_cons_self
    obtain ⟨n, hn, hfn⟩ := List.mem_flatMap.mp hmem
    have hseated : Seated .statement n := (Node.gapless_list rfl).mp h n hn
    have hnode : f.node ∈ (Node.toplevel body).everything := by
      refine Node.mem_everything_of_position (p := (.statement, n)) (List.mem_map_of_mem hn) ?_
      exact Node.faults_present hseated.gapless (hseated.present rfl) f hfn
    have hpresent := Node.isAbsent_of_mem_everything hnode
    obtain ⟨k, hkind, htag⟩ := Node.exists_kind hpresent
    refine ⟨path, f.node, k, hnode, hkind, ?_⟩
    rw [← htag]
    cases f with
    | misplaced m => exact .inl (if_neg (Bool.eq_false_iff.mp hpresent))
    | target m => exact .inr rfl

/-- What the code of a gapless instruction is made of is there, and gapless. -/
theorem payloads_seated {i : Instr} (h : ∀ p ∈ i.positions, Seated p.1 p.2) :
    ∀ n ∈ i.payloads, n.isAbsent = false ∧ Gapless n := by
  cases i with
  | leaf command code async =>
    have hcode := List.forall_mem_singleton.mp h
    refine List.forall_mem_singleton.mpr ⟨hcode.present ?_, hcode.gapless⟩
    dsimp only
    split <;> rfl
  | branch cond yes no hasElse shape yesTemp noTemp =>
    have hcond := List.forall_mem_singleton.mp h
    exact List.forall_mem_singleton.mpr ⟨hcond.present rfl, hcond.gapless⟩
  | loop | defun => exact List.forall_mem_nil _

/-- The code of a gapless program is only missing where the printer refuses a node in a payload. -/
theorem toCode_refuses {program : List Instr} (h : Instr.SeatedAll program) (st : Source.Style)
    (he : toCode (Source.render st) program = .error e) : RefusedPayload program e := by
  have hpayloads : ∀ i ∈ Instr.walkAll program, ∀ n ∈ i.payloads,
      (∃ i ∈ Instr.walkAll program, n ∈ i.payloads) ∧ n.isAbsent = false ∧ Gapless n :=
    fun i hi n hn => ⟨⟨i, hi, hn⟩, payloads_seated (h i hi) n hn⟩
  obtain ⟨path, n, cause, ⟨⟨⟨i, hi, hmem⟩, hpresent, hn⟩, hcause⟩, rfl⟩ :=
    serializeAll_refused_of (fun n hn => hn.2.1) hpayloads he
  obtain ⟨k, hkind, htag⟩ := Node.exists_kind hpresent
  refine ⟨path, i, n, k, cause, hi, hmem, hkind, ?_, by rw [htag]⟩
  exact Source.render_refuses st hn hpresent cause hcause

/-- What a document is read as is complete: nothing is missing from any node in it but what may
    be, declarations have names, and expression lists have members.  So the walk of a unit that
    was read ends at most at a node of the unit.  If it does not, then neither the source of the
    result nor a payload is refused but for a node that is there. -/
theorem reading_leaves_no_gaps (bytes : Bytes) :
    (∀ n, Node.parse bytes = .ok n → n.Complete) ∧
    ∀ unit, Node.parseUnit bytes = .ok unit → ∀ (naming : Naming) (isAsync : String → Bool),
      (∀ e, (transform naming isAsync unit).1 = .error e → StoppedAt unit e) ∧
      ∀ t, (transform naming isAsync unit).1 = .ok t → ∀ st : Source.Style,
        (∀ e, Source.render st t.tree = .error e → RefusedNode (· ∈ t.tree.everything) e) ∧
        ∀ e, toCode (Source.render st) t.program = .error e → RefusedPayload t.program e := by
  refine ⟨fun n hn => Node.complete_of_parse hn, fun unit hunit naming isAsync => ?_⟩
  obtain ⟨hcomplete, body, rfl⟩ := Node.complete_of_parseUnit hunit
  refine ⟨fun e he => transform_stops hcomplete.gapless he, fun t ht st => ?_⟩
  obtain ⟨hprogram, htree⟩ := transform_gapless hcomplete.gapless ht
  have hpresent : t.tree.isAbsent = false := by
    rw [transform_tree ht]
    rfl
  exact ⟨Source.render_refuses st htree hpresent, fun e he => toCode_refuses hprogram st he⟩

/-- A unit of which the tree and a payload are refused for a statement inside an expression that is
    copied as a whole, a sequence of a `return`. -/
theorem reading_leaves_no_gaps_of_statement :
    let bytes := Text.bytesOf "[toplevel, [[stat, [seq, [return]]]]]"
    ∃ unit t e e', Node.parse bytes = .ok unit ∧ unit.Complete ∧
      Node.parseUnit bytes = .ok unit ∧ (transform {} (fun _ => false) unit).1 = .ok t ∧
      Source.render {} t.tree = .error e ∧ RefusedNode (· ∈ t.tree.everything) e ∧
      toCode (Source.render {}) t.program = .error e' ∧ RefusedPayload t.program e' := by
  intro bytes
  obtain ⟨unit, hparse, hunit⟩ := Node.exists_of_readsWithin (k := 5) (p := fun n =>
      n.kind? == some .toplevel && okAnd (transform {} (fun _ => false) n).1 fun t =>
        !(Source.render {} t.tree).isOk && !(toCode (Source.render {}) t.program).isOk)
    (show Node.readsWithin 5 bytes _ = true by decide +kernel)
  rw [Bool.and_eq_true, beq_iff_eq] at hunit
  obtain ⟨t, ht, hrefused⟩ := exists_of_okAnd _ hunit.2
  rw [Bool.and_eq_true, Bool.not_eq_true', Bool.not_eq_true'] at hrefused
  obtain ⟨e, he⟩ := exists_of_not_isOk hrefused.1
  obtain ⟨e', he'⟩ := exists_of_not_isOk hrefused.2
  have hparseUnit := Node.parseUnit_of_parse hparse hunit.1
  obtain ⟨hcomplete, hgaps⟩ := reading_leaves_no_gaps bytes
  obtain ⟨-, hrefuses⟩ := hgaps unit hparseUnit {} fun _ => false
  obtain ⟨htree, hcode⟩ := hrefuses t ht {}
  exact ⟨unit, t, e, e', hparse, hcomplete unit hparse, hparseUnit, ht, he, htree e he, he',
    hcode e' he'⟩

end Program

end Resumable
