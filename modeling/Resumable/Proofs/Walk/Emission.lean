/-
  Resumable.Proofs.Walk.Emission — what a walk emits.

  `Emits env job σ vs split code σ'` says that walking `job` from the scope `σ` gives the values
  `vs`, whether something was split, the instructions `code`, and the scope `σ'`.  It has one rule
  for each thing a walk can do, and speaks of lists of instructions only: frames, trails and
  remarks are gone.  Expressions are seen through `parts` and `assemble`: every expression that
  has operands walks them from left to right and is put together again from their values.

  What holds of every derivation holds of every walk that ends well (Statement.lean), and is
  proved by induction on `Emits`.
-/
import Resumable.Proofs.Walk.Extension

namespace Resumable.Program

namespace Walk

/-! ## §1. Expressions and their operands. -/

/-- How a walk treats an expression. -/
inductive Form where
  /-- A name, redirected if it is declared. -/
  | reference
  /-- A literal, kept as it is. -/
  | literal
  /-- A construct that is not split. -/
  | copied
  /-- A value made from the values of operands. -/
  | combined
  | assigned
  | called
  /-- Anything that is no expression. -/
  | misplaced
  deriving DecidableEq, Repr

/-- The form of an expression. -/
def form : Node → Form
  | .name _ => .reference
  | .num _ | .string _ | .atom _ | .regexp _ _ => .literal
  | .conditional _ _ _ | .seq _ | .function _ _ _ => .copied
  | .new _ _ | .binary _ _ _ | .unary _ _ _ | .dot _ _ | .sub _ _ | .array _ | .object _ =>
      .combined
  | .assign _ t _ => if isTarget t then .assigned else .misplaced
  | .call _ _ => .called
  | _ => .misplaced

/-- An assignment is walked as one or not at all. -/
theorem form_assign (op : String) (t v : Node) :
    form (.assign op t v) = .assigned ∨ form (.assign op t v) = .misplaced := by
  cases ht : isTarget t with
  | true => exact .inl (if_pos ht)
  | false => exact .inr (if_neg (by simp [ht]))

/-- An assignment is walked only if its target can be assigned to. -/
theorem isTarget_of_form {op : String} {t v : Node}
    (h : form (.assign op t v) = .combined ∨ form (.assign op t v) = .assigned ∨
      form (.assign op t v) = .called) : isTarget t = true := by
  cases ht : isTarget t with
  | true => rfl
  | false => simp [form, ht] at h

/-- A member of an object can be assigned to. -/
theorem isTarget_of_isMember {n : Node} (h : isMember n = true) : isTarget n = true := by
  cases n <;> cases h <;> rfl

/-- The operands of something that is assigned to or called. -/
def placeParts : Node → List Node
  | .dot b _ => [b]
  | .sub b i => [b, i]
  | _ => []

/-- Something that is assigned to or called, with the values of its operands. -/
def placeFrom (σ : Scope) : Node → List Node → Node
  | .name x, _ => σ.resolve x
  | .dot _ f, b :: _ => .dot b f
  | .sub _ _, b :: i :: _ => .sub b i
  | n, _ => n

/-- The operands of a callee: a member access stays where it is. -/
def calleeParts (c : Node) : List Node := if isMember c then placeParts c else [c]

/-- A callee with the values of its operands. -/
def calleeFrom (σ : Scope) (c : Node) (vs : List Node) : Node :=
  if isMember c then placeFrom σ c vs else vs.headD c

/-- The operands of what a unary operator is applied to. -/
def operandParts (op : String) (e : Node) : List Node :=
  if mutates op && isTarget e then placeParts e else [e]

/-- What a unary operator is applied to, with the values of its operands. -/
def operandFrom (σ : Scope) (op : String) (e : Node) (vs : List Node) : Node :=
  if mutates op && isTarget e then placeFrom σ e vs else vs.headD e

/-- The operands of an expression in the order in which they are walked. -/
def parts : Node → List Node
  | .call c as => calleeParts c ++ as
  | .new c as => c :: as
  | .binary _ l r => [l, r]
  | .unary _ op e => operandParts op e
  | .assign _ t v => placeParts t ++ [v]
  | .dot b _ => [b]
  | .sub b i => [b, i]
  | .array es => es
  | .object ps => ps.map (·.2)
  | _ => []

/-- Nothing is walked in an expression that is copied. -/
theorem parts_of_copied {n : Node} (h : form n = .literal ∨ form n = .copied) : parts n = [] := by
  cases n with
  | num _ | string _ | atom _ | regexp _ _ | conditional _ _ _ | seq _ | function _ _ _ => rfl
  | assign op t v => rcases form_assign op t v with ha | ha <;> rw [ha] at h <;> simp at h
  | _ => rcases h with h | h <;> cases h

/-- An expression with the values of its operands. -/
def assemble (σ : Scope) : Node → List Node → Node
  | .call c _, vs => .call (calleeFrom σ c vs) (vs.drop (calleeParts c).length)
  | .new _ _, c :: as => .new c as
  | .binary op _ _, l :: r :: _ => .binary op l r
  | .unary side op e, vs => .unary side op (operandFrom σ op e vs)
  | .assign op t _, vs =>
      .assign op (placeFrom σ t vs) ((vs.drop (placeParts t).length).headD .absent)
  | .dot _ f, b :: _ => .dot b f
  | .sub _ _, b :: i :: _ => .sub b i
  | .array _, vs => .array vs
  | .object ps, vs => .object ((ps.map (·.1)).zip vs)
  | n, _ => n

/-! ## §2. Jobs. -/

/-- What can be walked. -/
inductive Job where
  /-- An expression. -/
  | expr (n : Node)
  /-- Expressions from left to right. -/
  | operands (ns : List Node)
  /-- An expression for its effect. -/
  | effect (n : Node)
  /-- A statement position. -/
  | stmt (n : Node)
  | stmts (ns : List Node)
  | bindings (ds : List (String × Node))
  /-- A branch, a body or the initializer of a loop; it may be empty. -/
  | region (n : Node)
  /-- The condition of a loop; it may be empty. -/
  | test (n : Node)
  /-- The step of a loop; it may be empty. -/
  | step (n : Node)

/-- A job that is done by doing another one. -/
inductive Job.Leads : Job → Job → Prop
  | expression {n : Node} (h : n.isExpression = true) : Leads (.stmt n) (.effect n)
  | stat (e : Node) : Leads (.stmt (.stat e)) (.effect e)
  | var (ds : List (String × Node)) : Leads (.stmt (.var ds)) (.bindings ds)
  | block (ns : List Node) : Leads (.stmt (.block ns)) (.stmts ns)
  | splice (ns : List Node) : Leads (.stmt (.splice ns)) (.stmts ns)
  | region (n : Node) : Leads (.region n) (.stmt n)
  | step (n : Node) : Leads (.step n) (.effect n)

/-- A part of a branch or loop that was left out. -/
inductive Job.Void : Job → Prop
  | region : Void (.region .absent)
  | test : Void (.test .absent)
  | step : Void (.step .absent)

/-- Whether a statement becomes one instruction with a copy of it. -/
def isPassed : Node → Bool
  | .breakTo _ | .continueTo _ | .debugger | .label _ _ | .whileLoop _ _ | .doLoop _ _
  | .tryCatch _ _ _ | .throw _ | .switch _ _ | .forIn _ _ _ | .withObject _ _ | .ret _
  | .const _ => true
  | _ => false

theorem isPassed_tag {n : Node} (h : isPassed n = true) : n.tag ≠ "call" := by
  cases n <;> cases h <;> simp [Node.tag, Node.kind?, Kind.tag]

/-! ## §3. Derivations. -/

/-- A copy of a construct that is not split. -/
def copy (σ : Scope) (n : Node) : Node := ((rename {} n).run σ).1

/-- The scope after a construct that is not split was copied. -/
def copyScope (σ : Scope) (n : Node) : Scope := ((rename {} n).run σ).2

/-- Whether a call is marked as one that may suspend. -/
def marked (env : Surface) (c : Node) (args : List Node) : Bool :=
  mentions env.isAsync c || args.any (mentions env.isAsync)

/-- The instruction of a call. -/
def callInstr (env : Surface) (σ : Scope) (c : Node) (args vs : List Node) : Instr :=
  .leaf "call" (.stat (assemble σ (.call c args) vs)) (marked env c args)

/-- The instruction that captures the value of a call. -/
def captureInstr (env : Surface) (temp : String) : Instr := .set (.name temp) env.returnValue

/-- The statement of an expression that was not split. -/
def unsplitStat (split : Bool) (v : Node) : List Instr := if split then [] else [.stat v]

/-- The null in front of a binding whose value was split. -/
def placeholder (split : Bool) (field : Node) : List Instr :=
  if split then [.set field .null] else []

/-- The temp that stands for a split list whose walk ended in a scope. -/
def regionTemp (split : Bool) (σ : Scope) : Option String :=
  if split then σ.lastTemp? else none

/-- What walking a job gives. -/
inductive Emits (env : Surface) : Job → Scope → List Node → Bool → List Instr → Scope → Prop
  | reference {σ : Scope} (x : String) :
      Emits env (.expr (.name x)) σ [σ.resolve x] false [] σ
  | literal {σ : Scope} {n : Node} (h : form n = .literal) :
      Emits env (.expr n) σ [n] false [] σ
  | copied {σ : Scope} {n : Node} (h : form n = .copied) :
      Emits env (.expr n) σ [copy σ n] false [] (copyScope σ n)
  /-- Nothing was split: the expression stays in place. -/
  | kept {σ σ' : Scope} {n : Node} {vs : List Node} {code : List Instr}
      (h : form n = .combined ∨ form n = .assigned)
      (ops : Emits env (.operands (parts n)) σ vs false code σ') :
      Emits env (.expr n) σ [assemble σ n vs] false code σ'
  /-- An operand was split: the value is captured. -/
  | captured {σ σ' : Scope} {n : Node} {vs : List Node} {code : List Instr}
      (h : form n = .combined)
      (ops : Emits env (.operands (parts n)) σ vs true code σ') :
      Emits env (.expr n) σ [.name σ'.nextTemp.1] true
        (code ++ [.set (.name σ'.nextTemp.1) (assemble σ n vs)]) σ'.nextTemp.2
  /-- An operand of an assignment was split: what is assigned to stands for the value. -/
  | assigned {σ σ' : Scope} {op : String} {t v : Node} {vs : List Node} {code : List Instr}
      (h : isTarget t = true)
      (ops : Emits env (.operands (parts (.assign op t v))) σ vs true code σ') :
      Emits env (.expr (.assign op t v)) σ [placeFrom σ t vs] true
        (code ++ [.stat (assemble σ (.assign op t v) vs)]) σ'
  | called {σ σ' : Scope} {c : Node} {args vs : List Node} {split : Bool} {code : List Instr}
      (ops : Emits env (.operands (parts (.call c args))) σ vs split code σ') :
      Emits env (.expr (.call c args)) σ [.name σ'.nextTemp.1] true
        (code ++ [callInstr env σ c args vs, captureInstr env σ'.nextTemp.1]) σ'.nextTemp.2
  | operandsNil {σ : Scope} : Emits env (.operands []) σ [] false [] σ
  | operandsCons {σ σ₁ σ₂ : Scope} {n v : Node} {ns vs : List Node} {split split' : Bool}
      {code code' : List Instr}
      (head : Emits env (.expr n) σ [v] split code σ₁)
      (tail : Emits env (.operands ns) σ₁ vs split' code' σ₂) :
      Emits env (.operands (n :: ns)) σ (v :: vs) (split || split') (code ++ code') σ₂
  | effect {σ σ' : Scope} {n v : Node} {split : Bool} {code : List Instr}
      (value : Emits env (.expr n) σ [v] split code σ') :
      Emits env (.effect n) σ [v] split (code ++ unsplitStat split v) σ'
  | leads {σ σ' : Scope} {job job' : Job} {vs : List Node} {split : Bool} {code : List Instr}
      (h : job.Leads job') (done : Emits env job' σ vs split code σ') :
      Emits env job σ vs split code σ'
  | void {σ : Scope} {job : Job} (h : job.Void) : Emits env job σ [.absent] false [] σ
  | branch {σ σ₁ σ₂ σ₃ : Scope} {c v yes no : Node} {ys ns : List Node}
      {condSplit yesSplit noSplit : Bool} {code yesList noList : List Instr}
      (cond : Emits env (.expr c) σ [v] condSplit code σ₁)
      (yesDone : Emits env (.region yes) σ₁ ys yesSplit yesList σ₂)
      (noDone : Emits env (.region no) σ₂ ns noSplit noList σ₃) :
      Emits env (.stmt (.ifElse c yes no)) σ [] (condSplit || yesSplit || noSplit)
        (code ++ [.branch v yesList noList (!no.isAbsent) ⟨condSplit, yesSplit, noSplit⟩
          (regionTemp yesSplit σ₂) (regionTemp noSplit σ₃)]) σ₃
  | test {σ σ' : Scope} {n v : Node} {split : Bool} {code : List Instr}
      (value : Emits env (.expr n) σ [v] split code σ') :
      Emits env (.test n) σ [v] split (code ++ [.leaf "test" v false]) σ'
  | loop {σ σ₁ σ₂ σ₃ σ₄ : Scope} {init cond step body c e : Node} {is bs : List Node}
      {initSplit condSplit stepSplit bodySplit : Bool}
      {initList testList stepList bodyList : List Instr}
      (initDone : Emits env (.region init) σ is initSplit initList σ₁)
      (testDone : Emits env (.test cond) σ₁ [c] condSplit testList σ₂)
      (stepDone : Emits env (.step step) σ₂ [e] stepSplit stepList σ₃)
      (bodyDone : Emits env (.region body) σ₃ bs bodySplit bodyList σ₄) :
      Emits env (.stmt (.forLoop init cond step body)) σ []
        (initSplit || condSplit || stepSplit || bodySplit)
        (initList ++ [.loop c testList stepList bodyList condSplit
          (if stepSplit then .absent else e)]) σ₄
  | declaration {σ σ' : Scope} {name : String} {params : List String} {ns vs : List Node}
      {split : Bool} {list : List Instr} (body : Emits env (.stmts ns) σ vs split list σ') :
      Emits env (.stmt (.defun name params ns)) σ [] false [.defun name params list] σ'
  | passed {σ : Scope} {n : Node} (h : isPassed n = true) :
      Emits env (.stmt n) σ [] false [.leaf n.tag (copy σ n) false] (copyScope σ n)
  | stmtsNil {σ : Scope} : Emits env (.stmts []) σ [] false [] σ
  | stmtsCons {σ σ₁ σ₂ : Scope} {n : Node} {ns vs vs' : List Node} {split split' : Bool}
      {code code' : List Instr}
      (head : Emits env (.stmt n) σ vs split code σ₁)
      (tail : Emits env (.stmts ns) σ₁ vs' split' code' σ₂) :
      Emits env (.stmts (n :: ns)) σ [] (split' || split) (code ++ code') σ₂
  | bindingsNil {σ : Scope} : Emits env (.bindings []) σ [] false [] σ
  | bare {σ σ' : Scope} {x : String} {ds : List (String × Node)} {vs : List Node} {split : Bool}
      {code : List Instr} (rest : Emits env (.bindings ds) (σ.declare x) vs split code σ') :
      Emits env (.bindings ((x, .absent) :: ds)) σ [] split (.set (σ.field x) .null :: code) σ'
  | bound {σ σ₁ σ₂ : Scope} {x : String} {init v : Node} {ds : List (String × Node)}
      {vs : List Node} {split split' : Bool} {code code' : List Instr}
      (value : Emits env (.expr init) (σ.declare x) [v] split code σ₁)
      (rest : Emits env (.bindings ds) σ₁ vs split' code' σ₂) :
      Emits env (.bindings ((x, init) :: ds)) σ [] (split' || split)
        (placeholder split (σ.field x) ++ code ++ .set (σ.field x) v :: code') σ₂

section

variable {env : Surface} {σ σ₁ σ₂ : Scope} {ns ms vs ws : List Node} {split split' : Bool}
  {code code' : List Instr}

/-- Operands walked one list after the other. -/
theorem Emits.operandsAppend
    (h : Emits env (.operands ns) σ vs split code σ₁)
    (h' : Emits env (.operands ms) σ₁ ws split' code' σ₂) :
    Emits env (.operands (ns ++ ms)) σ (vs ++ ws) (split || split') (code ++ code') σ₂ := by
  induction ns generalizing σ vs split code with
  | nil =>
    cases h with
    | operandsNil => simpa using h'
    | leads hl _ => cases hl
    | void hv => cases hv
  | cons n ns ih =>
    cases h with
    | operandsCons head tail =>
      have hrest := Emits.operandsCons head (ih tail)
      rw [← Bool.or_assoc, ← List.append_assoc] at hrest
      exact hrest
    | leads hl _ => cases hl
    | void hv => cases hv

/-- As many values as operands. -/
theorem Emits.operands_length (h : Emits env (.operands ns) σ vs split code σ₁) :
    vs.length = ns.length := by
  induction ns generalizing σ vs split code with
  | nil =>
    cases h with
    | operandsNil => rfl
    | leads hl _ => cases hl
    | void hv => cases hv
  | cons n ns ih =>
    cases h with
    | operandsCons head tail => simp [ih tail]
    | leads hl _ => cases hl
    | void hv => cases hv

end

end Walk

end Resumable.Program
