/-
  Resumable.Proofs.Sorts.Acceptance — which units are transformed.

  A walk takes more than a well-sorted tree holds, since a branch or the body of a loop may be left
  out, and it asks for less, since it does not look into what it copies.  `walked` lists the
  positions of a node that it goes to, `reached` all that it goes to in a tree, in its order.

  A unit is transformed if what stands at each of them may stand there.  Otherwise the report is on
  the first position at which something else does.  This is proved by comparing, at each position,
  the first fault of a walk with the first position that is not admitted (`faultsAt_head`).

  Main statement: `transform_refuses`.
-/
import Resumable.Proofs.Sorts.Refusals
import Resumable.Proofs.Walk.Calls

namespace Resumable

open Program (Fault)

namespace Node

/-! ## §1. Positions of a walk. -/

/-- The positions of a node that a walk goes to, with what stands there.  Any part of a branch but
    the condition and any part of a loop may be left out, and any statement may head a loop. -/
def walked : Node → List (Position × Node)
  | ifElse c y n => [(.operand, c), (.optionalStatement, y), (.optionalStatement, n)]
  | forLoop i c s b =>
      [(.optionalStatement, i), (.optional, c), (.optional, s), (.optionalStatement, b)]
  | n => if n.isWhole then [] else n.positions

/-- A walk goes to all positions of a node, or to none. -/
theorem walked_nodes (n : Node) :
    n.walked.map (·.2) = if n.isWhole then [] else n.positions.map (·.2) := by
  cases n <;> rfl

theorem sizeOf_lt_of_mem_walked {n : Node} {p : Position × Node} (h : p ∈ n.walked)
    (hp : p.2.isAbsent = false) : sizeOf p.2 < sizeOf n := by
  have hmem : p.2 ∈ n.walked.map (·.2) := List.mem_map_of_mem h
  rw [walked_nodes] at hmem
  split at hmem
  · cases hmem
  · obtain ⟨q, hq, heq⟩ := List.mem_map.mp hmem
    rw [← heq] at hp ⊢
    exact sizeOf_lt_of_mem_positions hq hp

/-- What heads a loop is walked as any other statement. -/
theorem walked_isHead (n : Node) : ∀ p ∈ n.walked, p.1.isHead = false := by
  cases n with
  | object _ | var _ => exact List.forall_mem_map.mpr fun _ _ => rfl
  | _ => simp [walked, isWhole, positions, Position.isHead]

/-- The positions of a tree that a walk goes to, each before those of what stands at it. -/
def reached (n : Node) : List (Position × Node) :=
  n.walked.attach.flatMap fun p =>
    p.1 :: if _ : p.1.2.isAbsent = true then [] else reached p.1.2
termination_by n
decreasing_by exact sizeOf_lt_of_mem_walked p.2 (Bool.eq_false_iff.mpr ‹_›)

theorem reached_absent : absent.reached = [] := by
  rw [reached]
  rfl

theorem reached_eq (n : Node) : n.reached = n.walked.flatMap fun p => p :: p.2.reached := by
  have hpart (p : Position × Node) :
      (p :: if _ : p.2.isAbsent = true then [] else p.2.reached) = p :: p.2.reached := by
    obtain ⟨position, m⟩ := p
    cases m with
    | absent => exact congrArg _ reached_absent.symm
    | _ => rfl
  rw [reached, List.flatMap_subtype (g := fun p => p :: p.2.reached) fun p _ => hpart p,
    List.unattach_attach]

theorem reached_leaf {n : Node} (hn : n.walked = []) : n.reached = [] := by
  rw [reached_eq, hn]
  rfl

end Node

namespace Position

open Node (exprFaults targetFaults operandFaults_eq fieldFaults_eq faultsAll_eq unlessAbsent
  bindingFaults faults)

variable {p : Position} {n : Node}

/-! ## §2. Faults at positions. -/

/-- What is wrong with something that may not stand where it does. -/
def fault : Position → Node → Fault
  | target, n => .target n
  | _, n => .misplaced n

/-- The faults of what stands at a position. -/
def faultsAt : Position → Node → List Fault
  | operand, n => exprFaults n
  | optional, n => unlessAbsent n (exprFaults n)
  | target, n => targetFaults n (exprFaults n)
  | statement, n => faults n
  | optionalStatement, n | header, n | iterator, n => unlessAbsent n (faults n)

theorem operand_faultsAt (h : n.isExpression = true) :
    exprFaults n = n.walked.flatMap fun q => q.1.faultsAt q.2 := by
  cases n with
  | name _ | num _ | string _ | atom _ | regexp _ _ | conditional _ _ _ | seq _ | function _ _ _ =>
    rfl
  | call _ _ | new _ _ | array _ =>
    rw [exprFaults, operandFaults_eq]
    simp [Node.walked, Node.isWhole, Node.positions, faultsAt, List.flatMap_map]
  | object ps =>
    rw [exprFaults, fieldFaults_eq]
    simp [Node.walked, Node.isWhole, Node.positions, faultsAt, List.flatMap_map]
  | unary _ _ _ | dot _ _ => exact (List.append_nil _).symm
  | binary _ _ _ | sub _ _ | assign _ _ _ =>
    simp [exprFaults, Node.walked, Node.isWhole, Node.positions, faultsAt]
  | _ => cases h

theorem statement_faultsAt (h : Position.statement.admits n = true) :
    faults n = n.walked.flatMap fun q => q.1.faultsAt q.2 := by
  cases n with
  | absent | toplevel _ => cases h
  | stat e => exact (List.append_nil _).symm
  | var ds =>
    rw [faults, bindingFaults]
    simp [Node.walked, Node.isWhole, Node.positions, faultsAt, List.flatMap_map]
  | block ns | splice ns | defun _ _ ns =>
    rw [faults, faultsAll_eq]
    simp [Node.walked, Node.isWhole, Node.positions, faultsAt, List.flatMap_map]
  | ifElse _ _ _ | forLoop _ _ _ _ =>
    rw [faults]
    simp [Node.walked, faultsAt]
  | breakTo _ | continueTo _ | debugger => rfl
  | label _ _ | whileLoop _ _ | doLoop _ _ | tryCatch _ _ _ | throw _ | switch _ _ | forIn _ _ _
  | withObject _ _ | ret _ | const _ => rfl
  | unary side op e =>
    exact operand_faultsAt (by cases side <;> rfl)
  | _ => exact operand_faultsAt rfl

/-- What may stand at a position has the faults of its parts only. -/
theorem faultsAt_of_admits (hp : p.isHead = false) (h : p.admits n = true) :
    p.faultsAt n = n.walked.flatMap fun q => q.1.faultsAt q.2 := by
  have hunless {fs : List Fault} (hn : n.isAbsent = true ∨
      fs = n.walked.flatMap fun q => q.1.faultsAt q.2) :
      unlessAbsent n fs = n.walked.flatMap fun q => q.1.faultsAt q.2 := by
    unfold unlessAbsent
    split
    · next ha => cases n <;> first | rfl | cases ha
    · next ha => exact hn.resolve_left ha
  cases p with
  | header | iterator => cases hp
  | operand => exact operand_faultsAt h
  | optional => exact hunless (((Bool.or_eq_true _ _).mp h).imp_right operand_faultsAt)
  | target =>
    refine (if_pos h).trans (operand_faultsAt ?_)
    cases n <;> first | rfl | cases h
  | statement => exact statement_faultsAt h
  | optionalStatement =>
    refine hunless ?_
    cases n with
    | absent => exact .inl rfl
    | unary side _ _ => exact .inr (statement_faultsAt (by cases side <;> rfl))
    | toplevel _ => cases h
    | _ => exact .inr (statement_faultsAt rfl)

theorem exprFaults_of_not_isExpression (h : n.isExpression = false) :
    exprFaults n = [.misplaced n] := by
  cases n with
  | unary side _ _ => cases side <;> cases h
  | _ => first | rfl | cases h

/-- What may not stand at a position is the fault of it. -/
theorem faultsAt_of_not_admits (hp : p.isHead = false) (h : p.admits n = false) :
    p.faultsAt n = [p.fault n] := by
  cases p with
  | header | iterator => cases hp
  | operand => exact exprFaults_of_not_isExpression h
  | optional =>
    obtain ⟨ha, he⟩ := (Bool.or_eq_false_iff (x := n.isAbsent)).mp h
    exact (if_neg (Bool.eq_false_iff.mp ha)).trans (exprFaults_of_not_isExpression he)
  | target => exact if_neg (Bool.eq_false_iff.mp h)
  | statement | optionalStatement =>
    cases n with
    | unary side _ _ => cases side <;> cases h
    | _ => first | rfl | cases h

/-! ## §3. The first fault. -/

/-- What is wrong at the first of some positions that something else stands at. -/
def firstFault (ps : List (Position × Node)) : Option Fault :=
  (ps.find? fun q => !q.1.admits q.2).map fun q => q.1.fault q.2

theorem firstFault_cons_of_admits {ps : List (Position × Node)} (h : p.admits n = true) :
    firstFault ((p, n) :: ps) = firstFault ps := by
  unfold firstFault
  rw [List.find?_cons_of_neg]
  rw [h]
  exact Bool.false_ne_true

theorem firstFault_cons_of_not_admits {ps : List (Position × Node)} (h : p.admits n = false) :
    firstFault ((p, n) :: ps) = some (p.fault n) := by
  unfold firstFault
  rw [List.find?_cons_of_pos]
  · rfl
  · rw [h]
    rfl

theorem firstFault_append (ps qs : List (Position × Node)) :
    firstFault (ps ++ qs) = (firstFault ps).or (firstFault qs) := by
  unfold firstFault
  rw [List.find?_append, Option.map_or]

/-- The first fault of a position is that of the first position in it. -/
def Leads (q : Position × Node) : Prop :=
  (q.1.faultsAt q.2).head? = firstFault (q :: q.2.reached)

theorem head_faultsAt {ps : List (Position × Node)} (h : ∀ q ∈ ps, Leads q) :
    (ps.flatMap fun q => q.1.faultsAt q.2).head? =
      firstFault (ps.flatMap fun q => q :: q.2.reached) := by
  induction ps with
  | nil => rfl
  | cons q ps ih =>
    obtain ⟨hq, hps⟩ := List.forall_mem_cons.mp h
    rw [List.flatMap_cons, List.flatMap_cons, List.head?_append, firstFault_append, hq, ih hps]

theorem Leads.of_parts (hp : p.isHead = false) (h : ∀ q ∈ n.walked, Leads q) : Leads (p, n) := by
  unfold Leads
  cases hn : p.admits n with
  | false => rw [faultsAt_of_not_admits hp hn, firstFault_cons_of_not_admits hn, List.head?_cons]
  | true =>
    rw [faultsAt_of_admits hp hn, firstFault_cons_of_admits hn, Node.reached_eq, head_faultsAt h]

theorem leads {p : Position} {n : Node} (hp : p.isHead = false) : Leads (p, n) := by
  refine .of_parts hp fun q hq => ?_
  have hqp : q.1.isHead = false := Node.walked_isHead _ q hq
  cases hqn : q.2.isAbsent with
  | true =>
    refine .of_parts hqp fun r hr => ?_
    -- nothing has no parts
    obtain ⟨position, m⟩ := q
    cases m <;> cases hqn
    cases hr
  | false =>
    have := Node.sizeOf_lt_of_mem_walked hq hqn
    exact leads hqp
termination_by sizeOf n

end Position

namespace Program

/-! ## §4. Whole units. -/

theorem faultsAll_head (body : List Node) :
    (Node.faultsAll body).head? = Position.firstFault (Node.toplevel body).reached := by
  have hbody : Node.faultsAll body =
      (Node.toplevel body).walked.flatMap fun q => q.1.faultsAt q.2 := by
    rw [Node.faultsAll_eq]
    simp [Node.walked, Node.isWhole, Node.positions, Position.faultsAt, List.flatMap_map]
  rw [hbody, Node.reached_eq, Position.head_faultsAt]
  exact fun q hq => Position.leads (Node.walked_isHead _ q hq)

/-- Without a tree there is no unit to transform.  A unit is refused if, and only if, something
    stands at a position that the walk goes to and that does not admit it: nothing or no expression
    where an expression is asked for, nothing or a unit where a statement is, or, as what is
    assigned to, neither a name nor a member access.  The report is on the first such position in
    the order of the walk: on the target, on the missing node, or on the kind of the node. -/
theorem transform_refuses (naming : Naming) (isAsync : String → Bool) :
    (transform naming isAsync .absent).1 = .error (.invalidInput .transform "nil tree") ∧
    ∀ body : List Node,
      ((∃ e, (transform naming isAsync (.toplevel body)).1 = .error e) ↔
        ∃ p ∈ (Node.toplevel body).reached, p.1.admits p.2 = false) ∧
      ∀ p, (Node.toplevel body).reached.find? (fun q => !q.1.admits q.2) = some p →
        ∃ path, (transform naming isAsync (.toplevel body)).1 =
          .error ((p.1.fault p.2).failure path) := by
  refine ⟨rfl, fun body => ?_⟩
  have hhead := faultsAll_head body
  unfold Position.firstFault at hhead
  have hends := transform_ends naming isAsync body
  cases hfind : (Node.toplevel body).reached.find? fun q => !q.1.admits q.2 with
  | none =>
    rw [hfind, Option.map_none, List.head?_eq_none_iff] at hhead
    rw [hhead] at hends
    obtain ⟨t, ht⟩ := hends
    refine ⟨⟨fun ⟨e, he⟩ => ?_, fun ⟨p, hp, hadmits⟩ => ?_⟩, fun p hp => by cases hp⟩
    · rw [ht] at he
      cases he
    · have := List.find?_eq_none.mp hfind p hp
      rw [hadmits] at this
      cases this rfl
  | some p =>
    rw [hfind, Option.map_some] at hhead
    obtain ⟨fs, hfaults⟩ := List.head?_eq_some_iff.mp hhead
    rw [hfaults] at hends
    obtain ⟨path, hf⟩ := hends
    refine ⟨⟨fun _ => ⟨p, List.mem_of_find?_eq_some hfind, ?_⟩, fun _ => ⟨_, hf⟩⟩, ?_⟩
    · have hadmits := List.find?_some hfind
      rwa [Bool.not_eq_true'] at hadmits
    · rintro q ⟨⟩
      exact ⟨path, hf⟩

/-- A number that is assigned to, behind a function literal with a gap and a branch without sides,
    and before a value that is missing: `(function() { <nothing> }); if (c) ; 1 = <nothing>`. -/
theorem transform_refuses_of_assignment :
    let body : List Node := [.stat (.function "" [] [.absent]), .ifElse (.name "c") .absent .absent,
      .stat (.assign "" (.num "1") .absent)]
    (Node.toplevel body).reached.find? (fun q => !q.1.admits q.2) = some (.target, .num "1") ∧
      (∃ e, (transform {} (fun _ => false) (.toplevel body)).1 = .error e) ∧
      ∃ path, (transform {} (fun _ => false) (.toplevel body)).1 =
        .error (.invalidTarget path "num") := by
  intro body
  obtain ⟨-, hunit⟩ := transform_refuses {} fun _ => false
  obtain ⟨hiff, hfirst⟩ := hunit body
  have hfind : (Node.toplevel body).reached.find? (fun q => !q.1.admits q.2) =
      some (.target, .num "1") := by
    have hfunction : (Node.function "" [] [.absent]).reached = [] := Node.reached_leaf rfl
    have hname : (Node.name "c").reached = [] := Node.reached_leaf rfl
    have hnum : (Node.num "1").reached = [] := Node.reached_leaf rfl
    have hreached : (Node.toplevel body).reached =
        [(.statement, .stat (.function "" [] [.absent])), (.operand, .function "" [] [.absent]),
          (.statement, .ifElse (.name "c") .absent .absent), (.operand, .name "c"),
          (.optionalStatement, .absent), (.optionalStatement, .absent),
          (.statement, .stat (.assign "" (.num "1") .absent)),
          (.operand, .assign "" (.num "1") .absent), (.target, .num "1"), (.operand, .absent)] := by
      simp [body, Node.reached_eq (.toplevel _), Node.reached_eq (.stat _),
        Node.reached_eq (.ifElse _ _ _), Node.reached_eq (.assign _ _ _), Node.reached_absent,
        hfunction, hname, hnum, Node.walked, Node.isWhole, Node.positions]
    rw [hreached]
    rfl
  exact ⟨hfind, hiff.mpr ⟨_, List.mem_of_find?_eq_some hfind, rfl⟩, hfirst _ hfind⟩

end Program

end Resumable
