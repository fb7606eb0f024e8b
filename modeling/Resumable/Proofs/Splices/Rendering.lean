/-
  Resumable.Proofs.Splices.Rendering — a dissolved tree reads the same.

  What a place adds to a node depends on the kind of the node, which dissolving keeps; and a list of
  statements is laid out splice by splice, which gives the lines that the nodes of each splice give
  in its place.  So every form, and every text, of a tree is the one of what it dissolves into.

  Main results:
    * `statements_dissolved` — a list is laid out as what it dissolves into;
    * `render_dissolved`     — a tree is rendered as what it dissolves into.
-/
import Resumable.Proofs.Splices.Dissolving
import Resumable.Source.Printer

namespace Resumable.Source

open Node (dissolved dissolvedAll dissolvedEach dissolvedFields dissolvedHandler
  dissolvedFinalizer dissolvedCases)

/-! ## §1. What a place adds. -/

theorem ofNode_dissolved (n : Node) : Precedence.ofNode n.dissolved = Precedence.ofNode n := by
  cases n with
  | unary side _ _ => cases side <;> rfl
  | new c as => cases as <;> rfl
  | _ => rfl

@[simp] theorem asOperand_dissolved (least : Nat) (n : Node) (form : Except Failure Layout) :
    asOperand least n.dissolved form = asOperand least n form := by
  unfold asOperand
  rw [Node.isExpression_dissolved, ofNode_dissolved, Node.tag_dissolved]

@[simp] theorem asStatement_dissolved (n : Node) (form : Except Failure Layout) :
    asStatement n.dissolved form = asStatement n form := by
  cases n with
  | unary side _ _ => cases side <;> rfl
  | _ => rfl

@[simp] theorem asHeader_dissolved (n : Node) (form : Except Failure Layout) :
    asHeader n.dissolved form = asHeader n form := by
  cases n with
  | absent | var _ => rfl
  | _ => exact asOperand_dissolved _ _ form

@[simp] theorem asOptional_dissolved (n : Node) (form : Except Failure Layout) :
    asOptional n.dissolved form = asOptional n form := by
  cases n with
  | absent => rfl
  | _ => exact asOperand_dissolved _ _ form

@[simp] theorem capturesElse_dissolved (n : Node) :
    capturesElse n.dissolved = capturesElse n := by
  cases n with
  | ifElse c y e => cases e <;> rfl
  | _ => rfl

@[simp] theorem isFunction_dissolved (n : Node) : isFunction n.dissolved = isFunction n := by
  cases n <;> rfl

@[simp] theorem isNumber_dissolved (n : Node) : isNumber n.dissolved = isNumber n := by
  cases n <;> rfl

@[simp] theorem startsStatement_dissolved (n : Node) :
    startsStatement n.dissolved = startsStatement n := by
  cases n <;> rfl

/-! ## §2. Statement lists. -/

/-- Lists one after the other are laid out one after the other. -/
theorem statements_append (depth : Nat) (xs ys : List Node) :
    statements depth (xs ++ ys) = do
      let first ← statements depth xs
      let second ← statements depth ys
      return first ++ second := by
  induction xs with
  | nil =>
    rw [statements, List.nil_append]
    exact (bind_pure (statements depth ys)).symm
  | cons x xs ih =>
    cases x with
    | absent => exact ih
    | _ =>
      simp only [List.cons_append, statements, ih, bind_assoc, pure_bind, List.append_assoc]

/-- The nodes of a splice are laid out as the splice. -/
theorem statements_members (depth : Nat) (n : Node) :
    statements depth n.members = statements depth [n] := by
  cases n with
  | splice nodes =>
    rw [Node.members, statements, statements]
    cases statements depth nodes with
    | error e => rfl
    | ok items => exact congrArg Except.ok (List.append_nil items).symm
  | _ => rfl

/-- A list is laid out by its first element and the others. -/
theorem statements_cons (depth : Nat) (n : Node) (rest : List Node) :
    statements depth (n :: rest) = do
      let first ← statements depth [n]
      let second ← statements depth rest
      return first ++ second :=
  statements_append depth [n] rest

/-- An element other than a splice is one statement. -/
theorem statements_single (depth : Nat) {n : Node} (present : n.isAbsent = false)
    (h : ∀ nodes, n ≠ .splice nodes) :
    statements depth [n] = (fun item => [item]) <$> asStatement n (form depth false n) := by
  cases n with
  | absent => cases present
  | splice nodes => exact absurd rfl (h nodes)
  | _ =>
    simp only [statements]
    rfl

/-- So is what it dissolves into. -/
theorem statements_element (depth : Nat) {n : Node} (present : n.isAbsent = false)
    (h : ∀ nodes, n ≠ .splice nodes) (same : form depth false n.dissolved = form depth false n) :
    statements depth n.dissolved.members = statements depth [n] := by
  rw [statements_members, statements_single depth present h, statements_single depth
    ((Node.isAbsent_dissolved n).trans present) (Node.dissolved_ne_splice h), asStatement_dissolved,
    same]

/-! ## §3. Forms. -/

/-- What heads a loop over an object is a declaration if what it dissolves into is one. -/
theorem iterator_dissolved (n : Node) (declared operand : Except Failure Layout) :
    (match n.dissolved with
      | .var _ => declared
      | _ => operand) =
      match n with
      | .var _ => declared
      | _ => operand := by
  cases n <;> rfl

mutual

/-- A node has the form of what it dissolves into. -/
theorem form_dissolved (depth : Nat) (asBody : Bool) (n : Node) :
    form depth asBody n.dissolved = form depth asBody n := by
  cases n with
  | absent | name _ | num _ | string _ | atom _ | regexp _ _ | breakTo _ | continueTo _
  | debugger => rfl
  | array es | seq es => rw [dissolved, form, form, operands_dissolved depth es]
  | object ps =>
    have empty : (dissolvedFields ps).isEmpty = ps.isEmpty := by cases ps <;> rfl
    rw [dissolved, form, form, properties_dissolved depth ps, empty]
  | call c as | new c as =>
    simp only [dissolved, form, asOperand_dissolved, isFunction_dissolved,
      form_dissolved depth false c, operands_dissolved depth as]
  | binary _ a b | assign _ a b | sub a b =>
    simp only [dissolved, form, asOperand_dissolved, form_dissolved depth false a,
      form_dissolved depth false b]
  | unary side _ a =>
    cases side <;> simp only [dissolved, form, asOperand_dissolved, form_dissolved depth false a]
  | dot a _ | stat a | throw a =>
    simp only [dissolved, form, asOperand_dissolved, isNumber_dissolved, startsStatement_dissolved,
      form_dissolved depth false a]
  | ret a =>
    simp only [dissolved, form, asOperand_dissolved, Node.isAbsent_dissolved,
      form_dissolved depth false a]
  | conditional a b c =>
    simp only [dissolved, form, asOperand_dissolved, form_dissolved depth false a,
      form_dissolved depth false b, form_dissolved depth false c]
  | var ds | const ds => rw [dissolved, form, form, bindings_dissolved depth ds]
  | function _ _ b | block b | defun _ _ b =>
    rw [dissolved, form, form, statements_dissolved (depth + 1) b]
  | toplevel b => rw [dissolved, form, form, statements_dissolved depth b]
  | splice b =>
    rw [dissolved, form, form, statements_dissolved (depth + 1) b, statements_dissolved depth b]
  | ifElse c y e =>
    simp only [dissolved, form, asOperand_dissolved, asStatement_dissolved, capturesElse_dissolved,
      Node.isAbsent_dissolved, form_dissolved depth false c, form_dissolved depth true y,
      form_dissolved (depth + 1) false y, form_dissolved depth true e]
  | forLoop i c s b =>
    simp only [dissolved, form, asHeader_dissolved, asOptional_dissolved, asStatement_dissolved,
      form_dissolved depth false i, form_dissolved depth false c, form_dissolved depth false s,
      form_dissolved depth true b]
  | forIn i o b =>
    simp only [dissolved, form, asOperand_dissolved, asStatement_dissolved,
      form_dissolved depth false i, form_dissolved depth false o, form_dissolved depth true b]
    exact iterator_dissolved i _ _
  | whileLoop c b | doLoop c b | withObject c b =>
    simp only [dissolved, form, asOperand_dissolved, asStatement_dissolved,
      form_dissolved depth false c, form_dissolved depth true b]
  | label _ b =>
    simp only [dissolved, form, asStatement_dissolved, form_dissolved depth false b]
  | tryCatch b h f =>
    rw [dissolved, form, form, statements_dissolved (depth + 1) b, catchClause_dissolved depth h,
      finallyClause_dissolved depth f]
  | switch d cs =>
    simp only [dissolved, form, asOperand_dissolved, form_dissolved depth false d,
      switchClauses_dissolved (depth + 1) cs]
termination_by structural n

theorem operands_dissolved (depth : Nat) (es : List Node) :
    operands depth (dissolvedEach es) = operands depth es := by
  cases es with
  | nil => rfl
  | cons e rest =>
    simp only [dissolvedEach, operands, asOperand_dissolved, form_dissolved depth false e,
      operands_dissolved depth rest]
termination_by structural es

theorem properties_dissolved (depth : Nat) (ps : List (String × Node)) :
    properties depth (dissolvedFields ps) = properties depth ps := by
  cases ps with
  | nil => rfl
  | cons p rest =>
    obtain ⟨k, n⟩ := p
    simp only [dissolvedFields, properties, asOperand_dissolved, form_dissolved depth false n,
      properties_dissolved depth rest]
termination_by structural ps

theorem bindings_dissolved (depth : Nat) (ds : List (String × Node)) :
    bindings depth (dissolvedFields ds) = bindings depth ds := by
  cases ds with
  | nil => rfl
  | cons d rest =>
    obtain ⟨x, n⟩ := d
    simp only [dissolvedFields, bindings, asOperand_dissolved, Node.isAbsent_dissolved,
      form_dissolved depth false n, bindings_dissolved depth rest]
termination_by structural ds

/-- A list is laid out as what it dissolves into. -/
theorem statements_dissolved (depth : Nat) (ns : List Node) :
    statements depth (dissolvedAll ns) = statements depth ns := by
  cases ns with
  | nil => rfl
  | cons n rest =>
    have here : statements depth n.dissolved.members = statements depth [n] := by
      cases n with
      | absent => rfl
      | splice nodes =>
        rw [← statements_members depth (.splice nodes)]
        exact statements_dissolved depth nodes
      | _ => exact statements_element depth rfl nofun (form_dissolved depth false _)
    rw [dissolvedAll, statements_append, here, statements_dissolved depth rest,
      ← statements_cons]
termination_by structural ns

theorem catchClause_dissolved (depth : Nat) (h : Option (String × List Node)) :
    catchClause depth (dissolvedHandler h) = catchClause depth h := by
  rcases h with _ | ⟨x, b⟩
  · rfl
  · rw [dissolvedHandler, catchClause, catchClause, statements_dissolved (depth + 1) b]
termination_by structural h

theorem finallyClause_dissolved (depth : Nat) (f : Option (List Node)) :
    finallyClause depth (dissolvedFinalizer f) = finallyClause depth f := by
  rcases f with _ | b
  · rfl
  · rw [dissolvedFinalizer, finallyClause, finallyClause, statements_dissolved (depth + 1) b]
termination_by structural f

theorem switchClauses_dissolved (depth : Nat) (cs : List (Node × List Node)) :
    switchClauses depth (dissolvedCases cs) = switchClauses depth cs := by
  cases cs with
  | nil => rfl
  | cons c rest =>
    obtain ⟨t, b⟩ := c
    simp only [dissolvedCases, switchClauses, asOperand_dissolved, Node.isAbsent_dissolved,
      form_dissolved depth false t, statements_dissolved (depth + 1) b,
      switchClauses_dissolved depth rest]
termination_by structural cs

end

/-! ## §4. Texts. -/

/-- A tree is laid out as what it dissolves into. -/
theorem layout_dissolved (n : Node) : layout n.dissolved = layout n := by
  have alone : statements 0 [n.dissolved] = statements 0 [n] := by
    rw [← statements_members, ← statements_dissolved 0 [n], Node.dissolvedAll, Node.dissolvedAll,
      List.append_nil]
  unfold layout
  rw [Node.isAbsent_dissolved, Node.isExpression_dissolved, form_dissolved, alone]

/-- A tree has the text of what it dissolves into, in any style. -/
theorem render_dissolved (st : Style) (n : Node) : render st n.dissolved = render st n := by
  rw [render, render, layout_dissolved]

mutual

/-- An element is laid out as the statements it contributes. -/
theorem statements_inlined (depth : Nat) (n : Node) :
    statements depth n.inlined = statements depth [n] := by
  cases n with
  | absent => rw [Node.inlined, statements, statements, statements]
  | splice nodes =>
    rw [Node.inlined, ← statements_members depth (.splice nodes)]
    exact statements_flatten depth nodes
  | _ => rw [Node.inlined] <;> exact nofun
termination_by structural n

/-- A list is laid out as its statements with every splice expanded. -/
theorem statements_flatten (depth : Nat) (ns : List Node) :
    statements depth (Node.flatten ns) = statements depth ns := by
  cases ns with
  | nil => rw [Node.flatten]
  | cons n rest =>
    rw [Node.flatten, statements_append, statements_inlined depth n,
      statements_flatten depth rest, ← statements_cons]
termination_by structural ns

end

/-- Units whose statements are laid out alike have the same text. -/
theorem render_toplevel (st : Style) {xs ys : List Node}
    (h : statements 0 xs = statements 0 ys) :
    render st (.toplevel xs) = render st (.toplevel ys) := by
  have unit : ∀ ns, statements 0 [.toplevel ns] =
      (fun item => [item]) <$> asStatement (.toplevel ns) (form 0 false (.toplevel ns)) :=
    fun ns => statements_single 0 rfl nofun
  have same : layout (.toplevel xs) = layout (.toplevel ys) := by
    show (statements 0 [.toplevel xs] >>= _) = (statements 0 [.toplevel ys] >>= _)
    rw [unit, unit, form, form, h]
    rfl
  rw [render, render, same]

end Resumable.Source
