/-
  Resumable.Proofs.Walk.Events — what an expression does, in order.

  `events` lists the calls and the changes (assignments, `++`, `--` and `delete`) of an expression
  in the order in which they are evaluated.  A call becomes an instruction of its own, but an
  operand without a call stays where it is, inside the payload of a later instruction.  So the order
  survives only if no operand that has changes but no call stands before one with a call:
  `Orderly` says that of an expression and of all its operands.

  `Performs` compares the events of a source with those of a program: they are found there in the
  same order, with nothing but changes in between.
-/
import Resumable.Proofs.Walk.Calls

namespace Resumable

namespace Node

open Program.Walk (isCall mutates)

/-! ## §1. What an expression does. -/

mutual

/-- The calls and changes of an expression, in the order in which they are evaluated.  What a walk
    copies as a whole is not looked into. -/
def events : Node → List Node
  | call c as => events c ++ eventsAll as ++ [call c as]
  | new c as => events c ++ eventsAll as
  | binary _ l r => events l ++ events r
  | unary side op e => events e ++ if mutates op then [unary side op e] else []
  | assign op t v => events t ++ events v ++ [assign op t v]
  | dot b _ => events b
  | sub b i => events b ++ events i
  | array es => eventsAll es
  | object ps => eventsFields ps
  | stat e => events e
  | _ => []

/-- The calls and changes of expressions, from left to right. -/
def eventsAll : List Node → List Node
  | [] => []
  | n :: rest => events n ++ eventsAll rest

/-- The calls and changes of the values of named fields. -/
def eventsFields : List (String × Node) → List Node
  | [] => []
  | (_, n) :: rest => events n ++ eventsFields rest

end

/-- Whether an expression has a call. -/
def hasCall (n : Node) : Bool := n.events.any isCall

/-- What an expression does itself, once its operands are evaluated. -/
def own : Node → List Node
  | call c as => [call c as]
  | unary side op e => if mutates op then [unary side op e] else []
  | assign op t v => [assign op t v]
  | _ => []

theorem eventsAll_eq (ns : List Node) : eventsAll ns = ns.flatMap events := by
  induction ns with
  | nil => simp [eventsAll]
  | cons n ns ih => rw [eventsAll, ih, List.flatMap_cons]

theorem eventsFields_eq (ps : List (String × Node)) :
    eventsFields ps = (ps.map (·.2)).flatMap events := by
  induction ps with
  | nil => simp [eventsFields]
  | cons p ps ih =>
    obtain ⟨k, n⟩ := p
    rw [eventsFields, ih, List.map_cons, List.flatMap_cons]

/-- Operands in an order that survives: one that has changes but no call is not followed by one
    with a call. -/
def InOrder (ns : List Node) : Prop :=
  ns.Pairwise fun p q => q.hasCall = true → p.hasCall = true ∨ p.events = []

/-- An expression whose operands are in order, and theirs as well. -/
inductive Orderly : Node → Prop
  | intro {n : Node} (operands : InOrder (Program.Walk.parts n))
      (each : ∀ p ∈ Program.Walk.parts n, Orderly p) : Orderly n

theorem Orderly.operands {n : Node} (h : Orderly n) : InOrder (Program.Walk.parts n) := by
  cases h with
  | intro operands _ => exact operands

theorem Orderly.each {n : Node} (h : Orderly n) : ∀ p ∈ Program.Walk.parts n, Orderly p := by
  cases h with
  | intro _ each => exact each

end Node

namespace Program

namespace Instr

/-- What carrying out an instruction does, as far as its payload shows. -/
def events : Instr → List Node
  | leaf _ code _ => code.events
  | _ => []

@[simp] theorem events_leaf (command : String) (code : Node) (async : Bool) :
    (leaf command code async).events = code.events := rfl

@[simp] theorem events_stat (e : Node) : (stat e).events = e.events := by
  rw [stat, events_leaf, Node.events]

/-- A value is read before it is put in its place. -/
@[simp] theorem events_set (target value : Node) :
    (set target value).events =
      target.events ++ value.events ++ [.assign "" target value] := by
  rw [set, events_stat, Node.events]

/-- An instruction with at most one call in its payload, which is then the payload itself. -/
inductive Lone : Instr → Prop
  | stat {e : Node} (h : e.hasCall = false) : Lone (.stat e)
  | call {c : Node} {args : List Node} (async : Bool) (h : ∀ n ∈ c :: args, n.hasCall = false) :
      Lone (.leaf "call" (.stat (.call c args)) async)

end Instr

namespace Walk

open Node (events eventsAll_eq eventsFields_eq hasCall own InOrder Orderly)

/-! ## §2. The events of operands. -/

section

variable {σ : Scope} {n t : Node} {vs : List Node}

theorem events_place (ht : isTarget t = true) : t.events = (placeParts t).flatMap events := by
  cases t with
  | name x | dot b f | sub b i => simp [events, placeParts]
  | _ => cases ht

theorem events_callee (c : Node) : c.events = (calleeParts c).flatMap events := by
  unfold calleeParts
  split
  · next hc => exact events_place (isTarget_of_isMember hc)
  · simp

theorem events_operand (op : String) (e : Node) :
    e.events = (operandParts op e).flatMap events := by
  unfold operandParts
  split
  · next he => exact events_place (Bool.and_eq_true_iff.mp he).2
  · simp

/-- What an expression that is walked through does: what its operands do, then its own event. -/
theorem events_parts (h : form n = .combined ∨ form n = .assigned ∨ form n = .called) :
    n.events = (parts n).flatMap events ++ own n := by
  cases n with
  | call c args =>
    rw [events, own, parts, List.flatMap_append, ← events_callee, eventsAll_eq]
  | unary side op e => rw [events, own, parts, ← events_operand]
  | assign op t v =>
    have ht := isTarget_of_form h
    rw [events, own, parts, List.flatMap_append, ← events_place ht]
    simp
  | new c args | binary op l r | dot b f | sub b i | array es | object ps =>
    simp [events, own, parts, eventsAll_eq, eventsFields_eq]
  | _ => rcases h with h | h | h <;> cases h

theorem events_resolve (σ : Scope) (x : String) : (σ.resolve x).events = [] := by
  unfold Scope.resolve Scope.field
  split <;> simp [events]

theorem events_placeFrom (ht : isTarget t = true) (hlen : (placeParts t).length ≤ vs.length) :
    (placeFrom σ t vs).events = (vs.take (placeParts t).length).flatMap events := by
  cases t with
  | name x =>
    simp only [placeFrom, placeParts, List.length_nil, List.take_zero, List.flatMap_nil]
    exact events_resolve σ x
  | dot b f =>
    rcases vs with _ | ⟨b', vs⟩
    · simp [placeParts] at hlen
    · simp [placeFrom, placeParts, events]
  | sub b i =>
    rcases vs with _ | ⟨b', _ | ⟨i', vs⟩⟩
    · simp [placeParts] at hlen
    · simp [placeParts] at hlen
    · simp [placeFrom, placeParts, events]
  | _ => cases ht

theorem events_calleeFrom {c : Node} (hlen : (calleeParts c).length ≤ vs.length) :
    (calleeFrom σ c vs).events = (vs.take (calleeParts c).length).flatMap events := by
  unfold calleeFrom calleeParts at *
  split
  · next hc =>
    rw [if_pos hc] at hlen
    exact events_placeFrom (isTarget_of_isMember hc) hlen
  · next hc =>
    rw [if_neg hc] at hlen
    match vs with
    | [] => simp at hlen
    | v :: _ => simp

theorem events_operandFrom {op : String} {e : Node}
    (hlen : vs.length = (operandParts op e).length) :
    (operandFrom σ op e vs).events = vs.flatMap events := by
  unfold operandFrom operandParts at *
  split
  · next he =>
    rw [if_pos he] at hlen
    rw [events_placeFrom (Bool.and_eq_true_iff.mp he).2 (by omega), ← hlen, List.take_length]
  · next he =>
    rw [if_neg he] at hlen
    match vs with
    | [v] => simp

theorem flatMap_take_drop (k : Nat) (vs : List Node) :
    (vs.take k).flatMap events ++ (vs.drop k).flatMap events = vs.flatMap events := by
  rw [← List.flatMap_append, List.take_append_drop]

/-- An expression put together from values does what they do, then its own event. -/
theorem events_assemble (h : form n = .combined ∨ form n = .assigned ∨ form n = .called)
    (hlen : vs.length = (parts n).length) :
    (assemble σ n vs).events = vs.flatMap events ++ own (assemble σ n vs) := by
  cases n with
  | call c args =>
    rw [parts, List.length_append] at hlen
    rw [assemble, events, own, events_calleeFrom (by omega), eventsAll_eq, flatMap_take_drop]
  | unary side op e => rw [assemble, events, own, events_operandFrom hlen]
  | assign op t v =>
    have ht := isTarget_of_form h
    rw [parts, List.length_append, List.length_singleton] at hlen
    -- what is left behind the operands of the target is the value alone
    have hvalue : ∃ w, vs.drop (placeParts t).length = [w] := by
      rw [← List.length_eq_one_iff, List.length_drop]
      omega
    obtain ⟨w, hw⟩ := hvalue
    rw [assemble, events, own, events_placeFrom ht (by omega), hw, List.headD_cons,
      ← flatMap_take_drop (placeParts t).length vs, hw]
    simp
  | array es => simp [assemble, events, own, eventsAll_eq]
  | object ps =>
    rw [parts, List.length_map] at hlen
    -- the values take the keys of the source, one each
    have hsnd : ((ps.map (·.1)).zip vs).map (·.2) = vs := List.map_snd_zip (by simp [hlen])
    simp [assemble, events, own, eventsFields_eq, hsnd]
  | new c args =>
    match vs with
    | [] => simp [parts] at hlen
    | _ :: _ => simp [assemble, events, own, eventsAll_eq]
  | dot b f =>
    match vs with
    | [] | _ :: _ :: _ => simp [parts] at hlen
    | [_] => simp [assemble, events, own]
  | binary op l r | sub b i =>
    match vs with
    | [] | [_] | _ :: _ :: _ :: _ => simp [parts] at hlen
    | [_, _] => simp [assemble, events, own]
  | _ => rcases h with h | h | h <;> cases h

theorem events_of_literal (h : form n = .literal) : n.events = [] := by
  cases n with
  | num _ | string _ | atom _ | regexp _ _ => simp [events]
  | assign op t v =>
    simp only [form] at h
    split at h <;> cases h
  | _ => cases h

/-- A construct that is not split stays one, so neither it nor its copy is looked into. -/
theorem events_of_copied (h : form n = .copied) : n.events = [] ∧ (copy σ n).events = [] := by
  cases n with
  | conditional _ _ _ | seq _ | function _ _ _ => simp [events, copy, rename]
  | assign op t v =>
    simp only [form] at h
    split at h <;> cases h
  | _ => cases h

end

/-! ## §3. Performing events. -/

/-- An event of the source, and the same event in a program. -/
inductive EventMatches (container : String) (hoisted locals : List String) : Node → Node → Prop
  | call {c c' : Node} {args args' : List Node}
      (callee : CalleeMatches container hoisted locals c c') (count : args'.length = args.length) :
      EventMatches container hoisted locals (.call c args) (.call c' args')
  | assign {t t' : Node} (op : String) (v v' : Node)
      (target : CalleeMatches container hoisted locals t t') :
      EventMatches container hoisted locals (.assign op t v) (.assign op t' v')
  | unary {e e' : Node} (side : Side) (op : String)
      (operand : CalleeMatches container hoisted locals e e') :
      EventMatches container hoisted locals (.unary side op e) (.unary side op e')

/-- The events of the source happen in their order, each once.  Besides them there are changes, such
    as those of temps, but no calls. -/
inductive Performs (container : String) (hoisted locals : List String) :
    List Node → List Node → Prop
  | nil : Performs container hoisted locals [] []
  | own {m m' : Node} {source done : List Node} (h : EventMatches container hoisted locals m m')
      (rest : Performs container hoisted locals source done) :
      Performs container hoisted locals (m :: source) (m' :: done)
  | extra {m' : Node} {source done : List Node} (h : isCall m' = false)
      (rest : Performs container hoisted locals source done) :
      Performs container hoisted locals source (m' :: done)

section

variable {container : String} {hoisted hoisted' locals locals' : List String} {m m' : Node}
  {s s' t t' x : List Node}

theorem EventMatches.isCall_eq (h : EventMatches container hoisted locals m m') :
    isCall m' = isCall m := by
  cases h <;> rfl

theorem EventMatches.widen (h : EventMatches container hoisted locals m m')
    (hh : hoisted' ⊆ hoisted) (hl : locals ⊆ locals') :
    EventMatches container hoisted' locals' m m' := by
  cases h with
  | call callee count => exact .call (callee.widen hh hl) count
  | assign op v v' target => exact .assign op v v' (target.widen hh hl)
  | unary side op operand => exact .unary side op (operand.widen hh hl)

namespace Performs

theorem widen (h : Performs container hoisted locals s t) (hh : hoisted' ⊆ hoisted)
    (hl : locals ⊆ locals') : Performs container hoisted' locals' s t := by
  induction h with
  | nil => exact .nil
  | own hm _ ih => exact .own (hm.widen hh hl) ih
  | extra hm _ ih => exact .extra hm ih

theorem append (h : Performs container hoisted locals s t)
    (h' : Performs container hoisted locals s' t') :
    Performs container hoisted locals (s ++ s') (t ++ t') := by
  induction h with
  | nil => exact h'
  | own hm _ ih => exact .own hm ih
  | extra hm _ ih => exact .extra hm ih

/-- Changes only. -/
theorem extras (h : ∀ m ∈ t, isCall m = false) : Performs container hoisted locals [] t := by
  induction t with
  | nil => exact .nil
  | cons m t ih =>
    rw [List.forall_mem_cons] at h
    exact .extra h.1 (ih h.2)

/-- What is performed by two lists is performed by the one, then by the other. -/
theorem split (h : Performs container hoisted locals s (t ++ t')) :
    ∃ s₁ s₂, s = s₁ ++ s₂ ∧ Performs container hoisted locals s₁ t ∧
      Performs container hoisted locals s₂ t' := by
  induction t generalizing s with
  | nil => exact ⟨[], s, rfl, .nil, h⟩
  | cons m' t ih =>
    cases h with
    | own hm rest =>
      obtain ⟨s₁, s₂, rfl, h₁, h₂⟩ := ih rest
      exact ⟨_ :: s₁, s₂, rfl, .own hm h₁, h₂⟩
    | extra hm rest =>
      obtain ⟨s₁, s₂, rfl, h₁, h₂⟩ := ih rest
      exact ⟨s₁, s₂, rfl, .extra hm h₁, h₂⟩

/-- More changes, put anywhere. -/
theorem insert (h : Performs container hoisted locals s (t ++ t'))
    (hx : ∀ m ∈ x, isCall m = false) : Performs container hoisted locals s (t ++ (x ++ t')) := by
  obtain ⟨s₁, s₂, rfl, h₁, h₂⟩ := h.split
  have hmiddle : Performs container hoisted locals s₂ (x ++ t') := (extras hx).append h₂
  exact h₁.append hmiddle

/-- No call is lost and none is added. -/
theorem countP_isCall (h : Performs container hoisted locals s t) :
    s.countP isCall = t.countP isCall := by
  induction h with
  | nil => rfl
  | own hm _ ih => rw [List.countP_cons, List.countP_cons, hm.isCall_eq, ih]
  | extra hm _ ih => rw [List.countP_cons, hm, ih, if_neg Bool.false_ne_true, Nat.add_zero]

/-- A call is performed by itself alone. -/
theorem of_call (h : Performs container hoisted locals s [m']) (hm : isCall m' = true) :
    ∃ m, s = [m] ∧ EventMatches container hoisted locals m m' := by
  cases h with
  | own hmatch rest =>
    cases rest
    exact ⟨_, rfl, hmatch⟩
  | extra hn _ =>
    rw [hm] at hn
    cases hn

end Performs

theorem isCall_of_not_hasCall {n : Node} (h : n.hasCall = false) :
    ∀ m ∈ n.events, isCall m = false := by
  simpa [hasCall] using h

end

end Walk

end Program

end Resumable
