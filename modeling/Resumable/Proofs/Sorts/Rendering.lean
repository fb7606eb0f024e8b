/-
  Resumable.Proofs.Sorts.Rendering — a well-sorted tree has a source text.

  The printer refuses two things: an operand that is no expression, and a statement that was left
  out.  Neither occurs in a well-sorted tree, at any depth.

  Main statement: `render_defined`.
-/
import Resumable.Proofs.Sorts.Positions
import Resumable.Source.Printer

namespace Resumable

/-- A result that is no failure. -/
def Defined {α : Type} (r : Except Failure α) : Prop := ∃ a, r = .ok a

namespace Defined

variable {α β : Type} {r : Except Failure α}

theorem pure (a : α) : Defined (Pure.pure a) := ⟨a, rfl⟩

theorem bind {f : α → Except Failure β} (h : Defined r) (hf : ∀ a, Defined (f a)) :
    Defined (r >>= f) := by
  obtain ⟨a, rfl⟩ := h
  exact hf a

theorem map {f : α → β} (h : Defined r) : Defined (f <$> r) := by
  obtain ⟨a, rfl⟩ := h
  exact ⟨f a, rfl⟩

end Defined

namespace Source

open Layout (ofText)
open Node (Fits WellSorted wellSorted_one wellSorted_two wellSorted_three wellSorted_four
  wellSorted_list wellSorted_fields wellSorted_applied wellSorted_tryCatch wellSorted_switch)

/-! ## §1. Places. -/

variable {n : Node} {depth least : Nat} {form : Except Failure Layout}

theorem asOperand_defined (h : Fits .operand n) (hf : WellSorted n → Defined form) :
    Defined (asOperand least n form) := by
  have hn : n.isExpression = true := h.admitted
  unfold asOperand
  rw [if_pos hn]
  exact .bind (hf h.sorted) fun _ => .pure _

theorem asStatement_present (h : n.isAbsent = false) (hf : Defined form) :
    Defined (asStatement n form) := by
  unfold asStatement
  split
  · cases h
  · exact .bind hf fun _ => .pure _
  · exact .bind hf fun _ => .pure _
  · split
    · exact .bind hf fun _ => .pure _
    · exact hf

theorem asStatement_defined (h : Fits .statement n) (hf : WellSorted n → Defined form) :
    Defined (asStatement n form) :=
  asStatement_present h.isAbsent (hf h.sorted)

theorem asOptional_defined (h : Fits .optional n) (hf : WellSorted n → Defined form) :
    Defined (asOptional n form) := by
  unfold asOptional
  split
  · exact .pure _
  · next hn =>
    refine asOperand_defined (h.of_optional fun ha => ?_) hf
    cases n <;> cases ha
    exact hn rfl

theorem asHeader_defined (h : Fits .header n) (hf : WellSorted n → Defined form) :
    Defined (asHeader n form) := by
  unfold asHeader
  split
  · exact .pure _
  · exact hf h.sorted
  · next hn hv =>
    refine asOperand_defined (h.of_header (fun ha => ?_) hv) hf
    cases n <;> cases ha
    exact hn rfl

/-! ## §2. Forms. -/

mutual

/-- A well-sorted tree has a form. -/
theorem form_defined (depth : Nat) (asBody : Bool) (n : Node) (h : WellSorted n) :
    Defined (Source.form depth asBody n) := by
  cases n with
  | absent | name _ | num _ | string _ | atom _ | regexp _ _ | breakTo _ | continueTo _
  | debugger =>
    rw [Source.form]
    exact .pure _
  | array es =>
    rw [Source.form]
    exact .bind (operands_defined depth es ((wellSorted_list rfl).mp h)) fun _ => .pure _
  | object ps =>
    rw [Source.form]
    exact .bind (properties_defined depth ps ((wellSorted_fields rfl).mp h)) fun _ => .pure _
  | call c as =>
    obtain ⟨hc, has⟩ := (wellSorted_applied rfl).mp h
    rw [Source.form]
    exact .bind (asOperand_defined hc (form_defined depth false c)) fun _ =>
      .bind (operands_defined depth as has) fun _ => .pure _
  | new c as =>
    obtain ⟨hc, has⟩ := (wellSorted_applied rfl).mp h
    rw [Source.form]
    exact .bind (asOperand_defined hc (form_defined depth false c)) fun _ =>
      .bind (operands_defined depth as has) fun _ => .pure _
  | binary op l r =>
    obtain ⟨hl, hr⟩ := (wellSorted_two rfl).mp h
    rw [Source.form]
    exact .bind (asOperand_defined hl (form_defined depth false l)) fun _ =>
      .bind (asOperand_defined hr (form_defined depth false r)) fun _ => .pure _
  | unary side op e =>
    have he := (wellSorted_one rfl).mp h
    cases side <;> rw [Source.form] <;>
      exact .bind (asOperand_defined he (form_defined depth false e)) fun _ =>
        .pure _
  | assign op t v =>
    obtain ⟨ht, hv⟩ := (wellSorted_two rfl).mp h
    rw [Source.form]
    exact .bind (asOperand_defined ht.of_target (form_defined depth false t)) fun _ =>
      .bind (asOperand_defined hv (form_defined depth false v)) fun _ => .pure _
  | dot b f =>
    have hb := (wellSorted_one rfl).mp h
    rw [Source.form]
    exact .bind (asOperand_defined hb (form_defined depth false b)) fun _ =>
      .pure _
  | sub b i =>
    obtain ⟨hb, hi⟩ := (wellSorted_two rfl).mp h
    rw [Source.form]
    exact .bind (asOperand_defined hb (form_defined depth false b)) fun _ =>
      .bind (asOperand_defined hi (form_defined depth false i)) fun _ => .pure _
  | conditional t y e =>
    obtain ⟨ht, hy, he⟩ := (wellSorted_three rfl).mp h
    rw [Source.form]
    exact .bind (asOperand_defined ht (form_defined depth false t)) fun _ =>
      .bind (asOperand_defined hy (form_defined depth false y)) fun _ =>
      .bind (asOperand_defined he (form_defined depth false e)) fun _ => .pure _
  | seq es =>
    rw [Source.form]
    exact .bind (operands_defined depth es ((wellSorted_list rfl).mp h)) fun _ => .pure _
  | function f ps b =>
    rw [Source.form]
    exact .bind (statements_defined (depth + 1) b ((wellSorted_list rfl).mp h)) fun _ => .pure _
  | defun f ps b =>
    rw [Source.form]
    exact .bind (statements_defined (depth + 1) b ((wellSorted_list rfl).mp h)) fun _ => .pure _
  | stat e =>
    have he := (wellSorted_one rfl).mp h
    rw [Source.form]
    exact .bind (asOperand_defined he (form_defined depth false e)) fun _ =>
      .pure _
  | var ds =>
    rw [Source.form]
    exact .bind (bindings_defined depth ds ((wellSorted_fields rfl).mp h)) fun _ => .pure _
  | const ds =>
    rw [Source.form]
    exact .bind (bindings_defined depth ds ((wellSorted_fields rfl).mp h)) fun _ => .pure _
  | block b =>
    rw [Source.form]
    exact .bind (statements_defined (depth + 1) b ((wellSorted_list rfl).mp h)) fun _ => .pure _
  | toplevel b =>
    rw [Source.form]
    exact .bind (statements_defined depth b ((wellSorted_list rfl).mp h)) fun _ => .pure _
  | splice ns =>
    have hns := (wellSorted_list rfl).mp h
    rw [Source.form]
    split
    · exact .bind (statements_defined (depth + 1) ns hns) fun _ => .pure _
    · exact .bind (statements_defined depth ns hns) fun _ => .pure _
  | ifElse c y e =>
    obtain ⟨hc, hy, he⟩ := (wellSorted_three rfl).mp h
    rw [Source.form]
    refine .bind (asOperand_defined hc (form_defined depth false c)) fun cond => ?_
    have hrest : ∀ yes, Defined (do
        let no ←
          if e.isAbsent then .ok []
          else (ofText " else " ++ ·) <$> asStatement e (Source.form depth true e)
        return ofText "if (" ++ cond ++ ofText ") " ++ yes ++ no) := by
      intro yes
      dsimp only
      split
      · exact .bind (.pure _) fun _ => .pure _
      · next ha =>
        have hno := he.of_optionalStatement ha
        exact .bind (.map (asStatement_defined hno (form_defined depth true e))) fun _ => .pure _
    dsimp only
    split
    · exact .bind (.map (asStatement_defined hy (form_defined (depth + 1) false y)))
        hrest
    · exact .bind (asStatement_defined hy (form_defined depth true y)) hrest
  | forLoop i c s b =>
    obtain ⟨hi, hc, hs, hb⟩ := (wellSorted_four rfl).mp h
    rw [Source.form]
    exact .bind (asHeader_defined hi (form_defined depth false i)) fun _ =>
      .bind (asOptional_defined hc (form_defined depth false c)) fun _ =>
      .bind (asOptional_defined hs (form_defined depth false s)) fun _ =>
      .bind (asStatement_defined hb (form_defined depth true b)) fun _ => .pure _
  | forIn i o b =>
    obtain ⟨hi, ho, hb⟩ := (wellSorted_three rfl).mp h
    have hinit := form_defined depth false i
    have hrest : ∀ init, Defined (do
        let object ← asOperand Precedence.lowest o (Source.form depth false o)
        let body ← asStatement b (Source.form depth true b)
        return ofText "for (" ++ init ++ ofText " in " ++ object ++ ofText ") " ++ body) := fun _ =>
      .bind (asOperand_defined ho (form_defined depth false o)) fun _ =>
      .bind (asStatement_defined hb (form_defined depth true b)) fun _ => .pure _
    cases i with
    | var ds =>
      rw [Source.form]
      exact .bind (hinit hi.sorted) hrest
    | _ =>
      rw [Source.form]
      · exact .bind (asOperand_defined ⟨hi.admitted, hi.sorted⟩ hinit) hrest
      · exact nofun
  | whileLoop c b =>
    obtain ⟨hc, hb⟩ := (wellSorted_two rfl).mp h
    rw [Source.form]
    exact .bind (asOperand_defined hc (form_defined depth false c)) fun _ =>
      .bind (asStatement_defined hb (form_defined depth true b)) fun _ => .pure _
  | doLoop c b =>
    obtain ⟨hb, hc⟩ := (wellSorted_two rfl).mp h
    rw [Source.form]
    exact .bind (asStatement_defined hb (form_defined depth true b)) fun _ =>
      .bind (asOperand_defined hc (form_defined depth false c)) fun _ => .pure _
  | label l b =>
    have hb := (wellSorted_one rfl).mp h
    rw [Source.form]
    exact .bind (asStatement_defined hb (form_defined depth false b)) fun _ => .pure _
  | ret v =>
    have hv := (wellSorted_one rfl).mp h
    rw [Source.form]
    split
    · exact .pure _
    · next ha =>
      exact .bind (asOperand_defined (hv.of_optional ha) (form_defined depth false v)) fun _ =>
        .pure _
  | throw v =>
    have hv := (wellSorted_one rfl).mp h
    rw [Source.form]
    exact .bind (asOperand_defined hv (form_defined depth false v)) fun _ =>
      .pure _
  | tryCatch b hd f =>
    obtain ⟨hb, hhd, hf⟩ := wellSorted_tryCatch.mp h
    rw [Source.form]
    exact .bind (statements_defined (depth + 1) b hb) fun _ =>
      .bind (catchClause_defined depth hd hhd) fun _ =>
      .bind (finallyClause_defined depth f hf) fun _ => .pure _
  | switch d cs =>
    obtain ⟨hd, hcs⟩ := wellSorted_switch.mp h
    rw [Source.form]
    exact .bind (asOperand_defined hd (form_defined depth false d)) fun _ =>
      .bind (switchClauses_defined (depth + 1) cs hcs) fun _ => .pure _
  | withObject o b =>
    obtain ⟨ho, hb⟩ := (wellSorted_two rfl).mp h
    rw [Source.form]
    exact .bind (asOperand_defined ho (form_defined depth false o)) fun _ =>
      .bind (asStatement_defined hb (form_defined depth true b)) fun _ => .pure _
termination_by structural n

theorem operands_defined (depth : Nat) (ns : List Node) (h : ∀ n ∈ ns, Fits .operand n) :
    Defined (operands depth ns) := by
  cases ns with
  | nil =>
    rw [operands]
    exact .pure _
  | cons n ns =>
    obtain ⟨hn, hns⟩ := List.forall_mem_cons.mp h
    rw [operands]
    exact .bind (asOperand_defined hn (form_defined depth false n)) fun _ =>
      .bind (operands_defined depth ns hns) fun _ => .pure _
termination_by structural ns

theorem properties_defined (depth : Nat) (ps : List (String × Node))
    (h : ∀ p ∈ ps, Fits .operand p.2) : Defined (properties depth ps) := by
  cases ps with
  | nil =>
    rw [properties]
    exact .pure _
  | cons p ps =>
    obtain ⟨hn, hps⟩ := List.forall_mem_cons.mp h
    obtain ⟨k, n⟩ := p
    rw [properties]
    exact .bind (asOperand_defined hn (form_defined depth false n)) fun _ =>
      .bind (properties_defined depth ps hps) fun _ => .pure _
termination_by structural ps

theorem bindings_defined (depth : Nat) (ds : List (String × Node))
    (h : ∀ d ∈ ds, Fits .optional d.2) : Defined (bindings depth ds) := by
  cases ds with
  | nil =>
    rw [bindings]
    exact .pure _
  | cons d ds =>
    obtain ⟨hn, hds⟩ := List.forall_mem_cons.mp h
    obtain ⟨x, n⟩ := d
    rw [bindings]
    have hrest : ∀ first, Defined (do return first :: (← bindings depth ds)) := fun _ =>
      .bind (bindings_defined depth ds hds) fun _ => .pure _
    dsimp only
    split
    · exact .bind (.pure _) hrest
    · next ha =>
      have operand := hn.of_optional ha
      exact .bind (.map (asOperand_defined operand (form_defined depth false n))) hrest
termination_by structural ds

theorem statements_defined (depth : Nat) (ns : List Node) (h : ∀ n ∈ ns, Fits .statement n) :
    Defined (statements depth ns) := by
  cases ns with
  | nil =>
    rw [statements]
    exact .pure _
  | cons n ns =>
    obtain ⟨hn, hns⟩ := List.forall_mem_cons.mp h
    have hrest := statements_defined depth ns hns
    cases n with
    | absent => cases hn.admitted
    | splice ms =>
      rw [statements]
      exact .bind (statements_defined depth ms ((wellSorted_list rfl).mp hn.sorted)) fun _ =>
        .bind hrest fun _ => .pure _
    | _ =>
      rw [statements]
      · exact .bind (asStatement_defined hn (form_defined depth false _)) fun _ =>
          .bind hrest fun _ => .pure _
      all_goals exact nofun
termination_by structural ns

theorem catchClause_defined (depth : Nat) (handler : Option (String × List Node))
    (h : ∀ c ∈ handler, ∀ n ∈ c.2, Fits .statement n) : Defined (catchClause depth handler) := by
  cases handler with
  | none =>
    rw [catchClause]
    exact .pure _
  | some c =>
    obtain ⟨x, body⟩ := c
    rw [catchClause]
    exact .bind (statements_defined (depth + 1) body (h _ rfl)) fun _ => .pure _
termination_by structural handler

theorem finallyClause_defined (depth : Nat) (finalizer : Option (List Node))
    (h : ∀ f ∈ finalizer, ∀ n ∈ f, Fits .statement n) :
    Defined (finallyClause depth finalizer) := by
  cases finalizer with
  | none =>
    rw [finallyClause]
    exact .pure _
  | some body =>
    rw [finallyClause]
    exact .bind (statements_defined (depth + 1) body (h _ rfl)) fun _ => .pure _
termination_by structural finalizer

theorem switchClauses_defined (depth : Nat) (cs : List (Node × List Node))
    (h : ∀ c ∈ cs, Fits .optional c.1 ∧ ∀ n ∈ c.2, Fits .statement n) :
    Defined (switchClauses depth cs) := by
  cases cs with
  | nil =>
    rw [switchClauses]
    exact .pure _
  | cons c cs =>
    obtain ⟨⟨ht, hbody⟩, hcs⟩ := List.forall_mem_cons.mp h
    obtain ⟨t, body⟩ := c
    rw [switchClauses]
    have hrest : ∀ head, Defined (do
        let items ← statements (depth + 1) body
        let others ← switchClauses depth cs
        return .line depth :: head ++ Layout.hanging (depth + 1) items ++ others) := fun _ =>
      .bind (statements_defined (depth + 1) body hbody) fun _ =>
        .bind (switchClauses_defined depth cs hcs) fun _ => .pure _
    dsimp only
    split
    · exact .bind (.pure _) hrest
    · next ha =>
      have operand := ht.of_optional ha
      exact .bind (.map (asOperand_defined operand (form_defined depth false t))) hrest
termination_by structural cs

end

/-! ## §3. Texts. -/

/-- A well-sorted tree has a text in every style. -/
theorem render_defined (st : Style) (h : WellSorted n) (ha : n.isAbsent = false) :
    Defined (render st n) := by
  unfold render layout
  rw [ha, if_neg Bool.false_ne_true]
  refine .bind ?_ fun _ => .pure _
  split
  · exact form_defined 0 false n h
  · refine .bind ?_ fun _ => .pure _
    -- a splice dissolves also where it stands alone
    cases n with
    | absent => cases ha
    | splice ns =>
      have hns : Fits .statement (.splice ns) := ⟨rfl, h⟩
      exact statements_defined 0 [.splice ns] (List.forall_mem_singleton.mpr hns)
    | _ =>
      rw [statements]
      · exact .bind (asStatement_present rfl (form_defined 0 false _ h)) fun _ =>
          .bind (statements_defined 0 [] (List.forall_mem_nil _)) fun _ => .pure _
      all_goals exact nofun

end Source

end Resumable
