/-
  Resumable.Proofs.Marks.Lockstep — two walks of the same unit, step by step.

  Two walks that are told different things about which names may suspend go through the same
  steps.  `State.Alike` relates their states: scope, trail and calls are the same, the frames hold
  instructions that are alike, and nothing is asked of remarks or of the number of marked calls.
  `Agree` says of two walks that from states alike they come to related values and states alike,
  or to the same failure.

  There is one lemma for each step; whatever is put together from steps with `bind` agrees if its
  parts do.

  Main statement: `stmts_agree`.
-/
import Resumable.Proofs.Marks.Instructions
import Resumable.Proofs.Walk.Emission

namespace Resumable.Program

/-! ## §1. Frames. -/

section

variable {α : Type} {r : α → α → Prop} {x y : α} {xs ys : List α}

/-- Two frames whose elements are related one by one. -/
structure Frame.Related (r : α → α → Prop) (f g : Frame α) : Prop where
  buffer : List.Forall₂ r f.buffer g.buffer
  tail : List.Forall₂ r f.tail g.tail

namespace Frame.Related

variable {f g : Frame α}

theorem content (h : Related r f g) : List.Forall₂ r f.content g.content :=
  List.rel_append h.buffer h.tail

theorem flush (h : Related r f g) : Related r f.flush g.flush :=
  ⟨h.content, .nil⟩

theorem emitAll (h : Related r f g) (hx : List.Forall₂ r xs ys) :
    Related r (f.emitAll xs) (g.emitAll ys) :=
  ⟨List.rel_append h.content hx, .nil⟩

theorem defer (h : Related r f g) (hx : r x y) : Related r (f.defer x) (g.defer y) :=
  ⟨h.buffer, List.rel_append h.tail (.cons hx .nil)⟩

theorem insertAt (h : Related r f g) (mark : Nat) (hx : r x y) :
    Related r (f.insertAt mark x) (g.insertAt mark y) := by
  -- the buffers are of the same length, so the position lies inside both or behind both
  have hlen : f.buffer.length = g.buffer.length := h.buffer.length_eq
  unfold Frame.insertAt
  rw [hlen]
  by_cases hm : mark ≥ g.buffer.length
  · rw [if_pos hm, if_pos hm]
    exact ⟨h.buffer, .cons hx h.tail⟩
  · rw [if_neg hm, if_neg hm]
    refine ⟨?_, h.tail⟩
    exact List.rel_append (List.forall₂_take mark h.buffer)
      (.cons hx (List.forall₂_drop mark h.buffer))

end Frame.Related

/-- Two stacks of frames whose elements are related one by one. -/
structure Frames.Related (r : α → α → Prop) (s t : Frames α) : Prop where
  top : Frame.Related r s.top t.top
  below : List.Forall₂ (Frame.Related r) s.below t.below

namespace Frames.Related

variable {s t : Frames α}

theorem push (h : Related r s t) : Related r s.push t.push :=
  ⟨⟨.nil, .nil⟩, .cons h.top h.below⟩

theorem emitAll (h : Related r s t) (hx : List.Forall₂ r xs ys) :
    Related r (s.emitAll xs) (t.emitAll ys) :=
  ⟨h.top.emitAll hx, h.below⟩

theorem emit (h : Related r s t) (hx : r x y) : Related r (s.emit x) (t.emit y) :=
  h.emitAll (.cons hx .nil)

theorem defer (h : Related r s t) (hx : r x y) : Related r (s.defer x) (t.defer y) :=
  ⟨h.top.defer hx, h.below⟩

theorem insertAt (h : Related r s t) (mark : Nat) (hx : r x y) :
    Related r (s.insertAt mark x) (t.insertAt mark y) :=
  ⟨h.top.insertAt mark hx, h.below⟩

theorem mark (h : Related r s t) : s.mark.1 = t.mark.1 ∧ Related r s.mark.2 t.mark.2 :=
  ⟨h.top.content.length_eq, h.top.flush, h.below⟩

/-- Two stacks are closed alike: either both have only the root frame, or both hand over a list. -/
theorem pop? (h : Related r s t) :
    (s.pop? = none ∧ t.pop? = none) ∨
      ∃ xs ys s' t', s.pop? = some (xs, s') ∧ t.pop? = some (ys, t') ∧
        List.Forall₂ r xs ys ∧ Related r s' t' := by
  rcases s with ⟨top, below⟩
  rcases t with ⟨top', below'⟩
  obtain ⟨htop, hbelow⟩ := h
  cases hbelow with
  | nil => exact .inl ⟨rfl, rfl⟩
  | cons head rest => exact .inr ⟨_, _, _, _, rfl, rfl, htop.content, head, rest⟩

/-- Two stacks have the same depth. -/
theorem depth_eq (h : Related r s t) : s.depth = t.depth := by
  unfold Frames.depth
  rw [h.below.length_eq]

theorem balanced_eq (h : Related r s t) : s.balanced = t.balanced := by
  rcases s with ⟨top, below⟩
  rcases t with ⟨top', below'⟩
  obtain ⟨-, hbelow⟩ := h
  cases hbelow <;> rfl

/-- The root frames hold related lists, at least if they are the only ones. -/
theorem root (h : Related r s t) (hs : s.balanced = true) :
    List.Forall₂ r s.root.1 t.root.1 := by
  rcases s with ⟨top, below⟩
  rcases t with ⟨top', below'⟩
  obtain ⟨htop, hbelow⟩ := h
  cases hbelow with
  | nil => exact htop.content
  | cons _ _ => cases hs

end Frames.Related

end

/-! ## §2. Walks that agree. -/

/-- States of two walks that differ at most in marks and remarks. -/
structure State.Alike (R : Bool → Bool → Prop) (s t : State) : Prop where
  scope : s.scope = t.scope
  frames : Frames.Related (Instr.Alike R) s.frames t.frames
  trail : s.trail = t.trail
  calls : s.calls = t.calls

/-- What two walks are told about names, with the marks that follow from it related. -/
structure Surface.Alike (R : Bool → Bool → Prop) (env env' : Surface) : Prop where
  refl : ∀ c, R c c
  returnValue : env.returnValue = env'.returnValue
  marked : ∀ c args, R (Walk.marked env c args) (Walk.marked env' c args)

namespace Walk

/-- What two walks come to: related values in states alike, or the same failure. -/
inductive Outcome {α β : Type} (R : Bool → Bool → Prop) (r : α → β → Prop) :
    Except Failure α × State → Except Failure β × State → Prop
  | value {a : α} {b : β} {s t : State} (h : r a b) (alike : State.Alike R s t) :
      Outcome R r (.ok a, s) (.ok b, t)
  | failure (e : Failure) (s t : State) : Outcome R r (.error e, s) (.error e, t)

/-- Two walks that come to the same from states alike. -/
def Agree {α β : Type} (R : Bool → Bool → Prop) (r : α → β → Prop) (x : Walk α) (y : Walk β) :
    Prop :=
  ∀ s t, State.Alike R s t → Outcome R r (x s) (y t)

section

variable {α β γ δ : Type} {R : Bool → Bool → Prop} {r : α → β → Prop} {q : γ → δ → Prop}
  {x : Walk α} {y : Walk β}

theorem Agree.pure {a : α} {b : β} (h : r a b) : Agree R r (Pure.pure a) (Pure.pure b) :=
  fun _ _ alike => .value h alike

theorem Agree.bind {f : α → Walk γ} {g : β → Walk δ} (h : Agree R r x y)
    (hf : ∀ a b, r a b → Agree R q (f a) (g b)) : Agree R q (x >>= f) (y >>= g) := by
  intro s t alike
  have first := h s t alike
  show Outcome R q ((ExceptT.bindCont f (x s).1) (x s).2) ((ExceptT.bindCont g (y t).1) (y t).2)
  generalize x s = out, y t = out' at first ⊢
  cases first with
  | value hab alike' => exact hf _ _ hab _ _ alike'
  | failure e s' t' => exact .failure e s' t'

/-- Steps that come to the same value are followed by the same. -/
theorem Agree.seq {x' : Walk α} {f : α → Walk γ} {g : α → Walk δ} (h : Agree R Eq x x')
    (hf : ∀ a, Agree R q (f a) (g a)) : Agree R q (x >>= f) (x' >>= g) := by
  refine h.bind fun a b hab => ?_
  subst hab
  exact hf a

theorem Agree.map {f : α → γ} {g : β → δ} (h : Agree R r x y)
    (hf : ∀ a b, r a b → q (f a) (g b)) : Agree R q (f <$> x) (g <$> y) := by
  rw [map_eq_pure_bind, map_eq_pure_bind]
  exact h.bind fun a b hab => .pure (hf a b hab)

theorem Agree.get : Agree R (State.Alike R) (MonadState.get : Walk State) MonadState.get :=
  fun _ _ alike => .value alike alike

theorem Agree.update {f g : State → State}
    (h : ∀ s t, State.Alike R s t → State.Alike R (f s) (g t)) :
    Agree R Eq (modify f : Walk Unit) (modify g) :=
  fun s t alike => .value rfl (h s t alike)

theorem Agree.inside (name : String) (h : Agree R r x y) :
    Agree R r (Walk.inside name x) (Walk.inside name y) := by
  intro s t alike
  have entered : State.Alike R { s with trail := s.trail.enter name }
      { t with trail := t.trail.enter name } :=
    ⟨alike.scope, alike.frames, congrArg (·.enter name) alike.trail, alike.calls⟩
  have body := h _ _ entered
  unfold Walk.inside
  generalize x { s with trail := s.trail.enter name } = out,
    y { t with trail := t.trail.enter name } = out' at body ⊢
  cases body with
  | value hab alike' =>
    refine .value hab ⟨alike'.scope, alike'.frames, ?_, alike'.calls⟩
    exact congrArg Trail.leave alike'.trail
  | failure e s' t' => exact .failure e _ _

/-- What is collected in frames of their own is alike. -/
theorem Agree.framed (h : Agree R r x y) :
    Agree R (fun a b => r a.1 b.1 ∧ AllAlike R a.2 b.2) (Walk.framed x) (Walk.framed y) := by
  intro s t alike
  have opened : State.Alike R { s with frames := s.frames.push }
      { t with frames := t.frames.push } :=
    ⟨alike.scope, alike.frames.push, alike.trail, alike.calls⟩
  have body := h _ _ opened
  unfold Walk.framed
  generalize x { s with frames := s.frames.push } = out,
    y { t with frames := t.frames.push } = out' at body ⊢
  cases body with
  | @value a b s' t' hab alike' =>
    rcases alike'.frames.pop? with ⟨hs, ht⟩ | ⟨xs, ys, fs, ft, hs, ht, hlist, hframes⟩
    · simp only [hs, ht, Option.getD_none]
      exact .value ⟨hab, .nil⟩ ⟨alike'.scope, alike'.frames, alike'.trail, alike'.calls⟩
    · simp only [hs, ht, Option.getD_some]
      exact .value ⟨hab, hlist⟩ ⟨alike'.scope, hframes, alike'.trail, alike'.calls⟩
  | failure e s' t' => exact .failure e _ _

end

/-! ## §3. Steps. -/

section

variable {R : Bool → Bool → Prop} {xs ys : List Instr} {i j : Instr}

theorem onFrames_agree {f g : Frames Instr → Frames Instr}
    (h : ∀ s t, Frames.Related (Instr.Alike R) s t → Frames.Related (Instr.Alike R) (f s) (g t)) :
    Agree R Eq (onFrames f) (onFrames g) := by
  refine .update fun s t alike => ?_
  exact ⟨alike.scope, h _ _ alike.frames, alike.trail, alike.calls⟩

theorem defer_agree (h : Instr.Alike R i j) : Agree R Eq (defer i) (defer j) :=
  onFrames_agree fun _ _ related => related.defer h

theorem emit_agree (h : Instr.Alike R i j) :
    Agree R Eq (onFrames (·.emit i)) (onFrames (·.emit j)) :=
  onFrames_agree fun _ _ related => related.emit h

theorem emitAll_agree (h : AllAlike R xs ys) :
    Agree R Eq (onFrames (·.emitAll xs)) (onFrames (·.emitAll ys)) :=
  onFrames_agree fun _ _ related => related.emitAll h

/-- Remarks may differ. -/
theorem remark_agree (m m' : State → Remark) : Agree R Eq (remark m) (remark m') := by
  refine .update fun s t alike => ?_
  exact ⟨alike.scope, alike.frames, alike.trail, alike.calls⟩

/-- So may their number: one walk may warn where the other does not. -/
theorem warn_agree (env env' : Surface) (n : Node) : Agree R Eq (warn env n) (warn env' n) := by
  intro s t alike
  have kept : ∀ remarks remarks', State.Alike R { s with remarks } { t with remarks := remarks' } :=
    fun _ _ => ⟨alike.scope, alike.frames, alike.trail, alike.calls⟩
  unfold warn
  cases flaggedCall? env.isAsync n <;> cases flaggedCall? env'.isAsync n <;>
    exact .value rfl (kept _ _)

theorem copied_agree (n : Node) : Agree R Eq (copied n) (copied n) := by
  intro s t alike
  unfold copied
  rw [alike.scope]
  exact .value rfl ⟨rfl, alike.frames, alike.trail, alike.calls⟩

theorem unsplit_agree (env env' : Surface) (n : Node) :
    Agree R Eq (unsplit env n) (unsplit env' n) :=
  (warn_agree env env' n).seq fun _ => copied_agree n

theorem newTemp_agree : Agree R Eq newTemp newTemp := by
  intro s t alike
  unfold newTemp
  rw [alike.scope]
  exact .value rfl ⟨rfl, alike.frames, alike.trail, alike.calls⟩

/-- A failure that says where it arose says the same. -/
theorem misplaced_agree {α β : Type} {r : α → β → Prop} (n : Node) :
    Agree R r (misplaced n) (misplaced n) := by
  refine Agree.get.bind fun s t alike => ?_
  rw [alike.trail]
  by_cases hn : n.isAbsent
  · rw [if_pos hn, if_pos hn]
    exact fun s t _ => .failure _ s t
  · rw [if_neg hn, if_neg hn]
    exact fun s t _ => .failure _ s t

end

/-! ## §4. Expressions. -/

section

variable {R : Bool → Bool → Prop} {env env' : Surface} (h : Surface.Alike R env env')

include h

theorem capture_agree (value : Node) : Agree R Eq (capture value) (capture value) :=
  newTemp_agree.seq fun _ => (defer_agree (.leaf h.refl _ _ _)).seq fun _ => .pure rfl

theorem settle_agree (value : Node) (split : Bool) :
    Agree R Eq (settle value split) (settle value split) := by
  cases split with
  | false => exact .pure rfl
  | true => exact capture_agree h value

/-- The call itself is the only step that the marks go into. -/
theorem emitCall_agree (c c' : Node) (args args' : List Node) :
    Agree R Eq (emitCall env c (marked env c args) c' args')
      (emitCall env' c (marked env' c args) c' args') := by
  unfold emitCall
  have hcall : Instr.Alike R (.leaf "call" (.stat (.call c' args')) (marked env c args))
      (.leaf "call" (.stat (.call c' args')) (marked env' c args)) :=
    .call _ (h.marked c args)
  have hcount : ∀ a a' : Bool, Agree R Eq
      (modify fun s => { s with calls := s.calls + 1, asyncCalls := s.asyncCalls + a.toNat })
      (modify fun s => { s with calls := s.calls + 1, asyncCalls := s.asyncCalls + a'.toNat }) := by
    intro a a'
    refine .update fun s t alike => ?_
    exact ⟨alike.scope, alike.frames, alike.trail, congrArg (· + 1) alike.calls⟩
  refine (emit_agree hcall).seq fun _ => (hcount _ _).seq fun _ => newTemp_agree.seq fun t => ?_
  rw [h.returnValue]
  refine (defer_agree (.leaf h.refl _ _ _)).seq fun _ => ?_
  -- one walk may remark on the call where the other does not
  intro s t alike
  cases marked env c args <;> cases marked env' c args <;>
    exact .value rfl ⟨alike.scope, alike.frames, alike.trail, alike.calls⟩

end

section

variable {R : Bool → Bool → Prop} {env env' : Surface}

mutual

theorem expr_agree (h : Surface.Alike R env env') (n : Node) :
    Agree R Eq (expr env n) (expr env' n) := by
  cases n with
  | name x =>
    rw [expr, expr]
    refine Agree.get.bind fun s t alike => ?_
    rw [alike.scope]
    exact .pure rfl
  | num _ | string _ | atom _ | regexp _ _ =>
    rw [expr, expr]
    exact .pure rfl
  | call c args =>
    rw [expr, expr]
    refine .inside _ ?_
    dsimp only
    -- a member is walked as a target in both walks
    by_cases hm : isMember c
    · rw [if_pos hm, if_pos hm]
      exact (target_agree h c).seq fun _ => (operands_agree h args).seq fun _ =>
        emitCall_agree h c _ args _
    · rw [if_neg hm, if_neg hm]
      exact (expr_agree h c).seq fun _ => (operands_agree h args).seq fun _ =>
        emitCall_agree h c _ args _
  | new c args =>
    rw [expr, expr]
    exact (expr_agree h c).seq fun _ => (operands_agree h args).seq fun _ => settle_agree h _ _
  | binary op l r =>
    rw [expr, expr]
    refine (expr_agree h l).seq fun ⟨_, ls⟩ => (expr_agree h r).seq fun ⟨_, rs⟩ => ?_
    dsimp only
    by_cases hs : ((ls || rs) && shortCircuits op) = true
    · rw [if_pos hs]
      exact (remark_agree _ _).seq fun _ => settle_agree h _ _
    · rw [if_neg hs]
      exact settle_agree h _ _
  | unary side op e =>
    rw [expr, expr]
    dsimp only
    by_cases hm : (mutates op && isTarget e) = true
    · rw [if_pos hm, if_pos hm]
      exact (target_agree h e).seq fun _ => settle_agree h _ _
    · rw [if_neg hm, if_neg hm]
      exact (expr_agree h e).seq fun _ => settle_agree h _ _
  | assign op t v =>
    rw [expr, expr]
    refine (target_agree h t).seq fun ⟨_, ts⟩ => (expr_agree h v).seq fun ⟨_, vs⟩ => ?_
    dsimp only
    by_cases hs : (ts || vs) = true
    · rw [if_pos hs]
      exact (defer_agree (.leaf h.refl _ _ _)).seq fun _ => .pure rfl
    · rw [if_neg hs]
      exact .pure rfl
  | dot b f =>
    rw [expr, expr]
    exact (expr_agree h b).seq fun _ => settle_agree h _ _
  | sub b i =>
    rw [expr, expr]
    exact (expr_agree h b).seq fun _ => (expr_agree h i).seq fun _ => settle_agree h _ _
  | array es =>
    rw [expr, expr]
    exact (operands_agree h es).seq fun _ => settle_agree h _ _
  | object ps =>
    rw [expr, expr]
    exact (fields_agree h ps).seq fun _ => settle_agree h _ _
  | conditional _ _ _ | seq _ | function _ _ _ =>
    rw [expr, expr]
    exact (unsplit_agree env env' _).map fun _ _ same => by rw [same]
  | _ =>
    simp only [expr]
    exact misplaced_agree _
termination_by structural n

theorem target_agree (h : Surface.Alike R env env') (n : Node) :
    Agree R Eq (target env n) (target env' n) := by
  cases n with
  | name x =>
    rw [target, target]
    refine Agree.get.bind fun s t alike => ?_
    rw [alike.scope]
    exact .pure rfl
  | dot b f =>
    rw [target, target]
    exact (expr_agree h b).seq fun _ => .pure rfl
  | sub b i =>
    rw [target, target]
    exact (expr_agree h b).seq fun _ => (expr_agree h i).seq fun _ => .pure rfl
  | _ =>
    simp only [target]
    refine Agree.get.bind fun s t alike => ?_
    rw [alike.trail]
    exact fun s t _ => .failure _ s t
termination_by structural n

theorem operands_agree (h : Surface.Alike R env env') (ns : List Node) :
    Agree R Eq (operands env ns) (operands env' ns) := by
  cases ns with
  | nil =>
    rw [operands, operands]
    exact .pure rfl
  | cons n ns =>
    rw [operands, operands]
    exact (expr_agree h n).seq fun _ => (operands_agree h ns).seq fun _ => .pure rfl
termination_by structural ns

theorem fields_agree (h : Surface.Alike R env env') (ps : List (String × Node)) :
    Agree R Eq (fields env ps) (fields env' ps) := by
  cases ps with
  | nil =>
    rw [fields, fields]
    exact .pure rfl
  | cons p ps =>
    obtain ⟨k, n⟩ := p
    rw [fields, fields]
    exact (expr_agree h n).seq fun _ => (fields_agree h ps).seq fun _ => .pure rfl
termination_by structural ps

end

end

/-! ## §5. Statements. -/

section

variable {R : Bool → Bool → Prop} {env env' : Surface} (h : Surface.Alike R env env')

include h

theorem statement_agree {x y : Walk (Node × Bool)} (hx : Agree R Eq x y) :
    Agree R Eq (statement x) (statement y) := by
  refine hx.seq fun ⟨v, split⟩ => ?_
  cases split with
  | false => exact (defer_agree (.leaf h.refl _ _ _)).seq fun _ => .pure rfl
  | true => exact .pure rfl

theorem statementOr_agree (n : Node) {x y : Walk Bool} (hx : Agree R Eq x y) :
    Agree R Eq (statementOr env n x) (statementOr env' n y) := by
  unfold statementOr
  by_cases hn : n.isExpression = true
  · rw [if_pos hn, if_pos hn]
    exact statement_agree h (expr_agree h n)
  · rw [if_neg hn, if_neg hn]
    exact hx

theorem binding_agree (x : String) (init : Node) :
    Agree R Eq (binding env x init) (binding env' x init) := by
  have declared : Agree R Eq (modify fun s => { s with scope := s.scope.declare x })
      (modify fun s => { s with scope := s.scope.declare x }) := by
    refine .update fun s t alike => ?_
    exact ⟨congrArg (·.declare x) alike.scope, alike.frames, alike.trail, alike.calls⟩
  refine declared.seq fun _ => Agree.get.bind fun s t alike => ?_
  rw [alike.scope]
  by_cases hi : init.isAbsent = true
  · rw [if_pos hi, if_pos hi]
    exact (defer_agree (.leaf h.refl _ _ _)).seq fun _ => .pure rfl
  · rw [if_neg hi, if_neg hi]
    refine (Agree.inside _ ?_).seq fun read => ?_
    · -- both walks note the same position, since their frames hold as many instructions
      refine Agree.get.bind fun s t alike => ?_
      obtain ⟨hmark, hframes⟩ := alike.frames.mark
      refine (onFrames_agree fun _ _ _ => hframes).seq fun _ => (expr_agree h init).seq fun _ => ?_
      have hlength : s.frames.top.content.length = t.frames.top.content.length := hmark
      exact .pure (congrArg (·, _, _) hlength)
    · obtain ⟨mark, v, split⟩ := read
      cases split with
      | false => exact (defer_agree (.leaf h.refl _ _ _)).seq fun _ => .pure rfl
      | true =>
        exact (onFrames_agree fun _ _ related => related.insertAt mark (.leaf h.refl _ _ _)).seq
          fun _ => (remark_agree _ _).seq fun _ => (defer_agree (.leaf h.refl _ _ _)).seq
          fun _ => .pure rfl

theorem bindings_agree (ds : List (String × Node)) :
    Agree R Eq (bindings env ds) (bindings env' ds) := by
  induction ds with
  | nil =>
    rw [bindings, bindings]
    exact .pure rfl
  | cons d ds ih =>
    rw [bindings, bindings]
    exact (binding_agree h _ _).seq fun _ => ih.seq fun _ => .pure rfl

/-- What two walks collect: the same value, and instructions that are alike. -/
def Collected {α : Type} (R : Bool → Bool → Prop) (a b : α × List Instr) : Prop :=
  a.1 = b.1 ∧ AllAlike R a.2 b.2

theorem region_agree (name : String) (body : Node) {x y : Walk Bool} (hx : Agree R Eq x y) :
    Agree R (Collected R) (region env name body x) (region env' name body y) := by
  refine .inside _ (.framed ?_)
  by_cases hb : body.isAbsent = true
  · rw [if_pos hb, if_pos hb]
    exact .pure rfl
  · rw [if_neg hb, if_neg hb]
    exact statementOr_agree h body hx

theorem condition_agree (cond : Node) : Agree R Eq (condition env cond) (condition env' cond) := by
  refine (Agree.framed ((expr_agree h cond).inside _)).bind ?_
  rintro ⟨r, list⟩ ⟨_, list'⟩ ⟨rfl, hlist⟩
  exact (emitAll_agree hlist).seq fun _ => .pure rfl

omit h in
theorem resultTemp_agree (split : Bool) : Agree R Eq (resultTemp split) (resultTemp split) := by
  refine Agree.get.bind fun s t alike => ?_
  rw [alike.scope]
  exact .pure rfl

theorem branch_agree (cond yes no : Node) {x x' y y' : Walk Bool} (hx : Agree R Eq x x')
    (hy : Agree R Eq y y') :
    Agree R Eq (branch env cond yes no x y) (branch env' cond yes no x' y') := by
  refine .inside _ ((condition_agree h cond).seq fun ⟨cond', condSplit⟩ => ?_)
  refine (region_agree h "then" yes hx).bind ?_
  rintro ⟨yesSplit, yesList⟩ ⟨_, yesList'⟩ ⟨rfl, hyes⟩
  refine (resultTemp_agree yesSplit).seq fun yesTemp => (region_agree h "else" no hy).bind ?_
  rintro ⟨noSplit, noList⟩ ⟨_, noList'⟩ ⟨rfl, hno⟩
  refine (resultTemp_agree noSplit).seq fun noTemp => (remark_agree _ _).seq fun _ => ?_
  exact (defer_agree (.branch h.refl _ _ _ _ _ hyes hno)).seq fun _ => .pure rfl

theorem loopInit_agree (init : Node) {x y : Walk Bool} (hx : Agree R Eq x y) :
    Agree R Eq (loopInit env init x) (loopInit env' init y) := by
  unfold loopInit
  by_cases hi : init.isAbsent = true
  · rw [if_pos hi, if_pos hi]
    exact .pure rfl
  · rw [if_neg hi, if_neg hi]
    refine (region_agree h "init" init hx).bind ?_
    rintro ⟨split, list⟩ ⟨_, list'⟩ ⟨rfl, hlist⟩
    exact (emitAll_agree hlist).seq fun _ => .pure rfl

theorem loopTest_agree (cond : Node) :
    Agree R (Collected R) (loopTest env cond) (loopTest env' cond) := by
  refine .framed ?_
  by_cases hc : cond.isAbsent = true
  · rw [if_pos hc, if_pos hc]
    exact .pure rfl
  · rw [if_neg hc, if_neg hc]
    exact ((expr_agree h cond).inside _).seq fun _ =>
      (defer_agree (.leaf h.refl _ _ _)).seq fun _ => .pure rfl

theorem loopStep_agree (step : Node) :
    Agree R (Collected R) (loopStep env step) (loopStep env' step) := by
  refine .framed ?_
  by_cases hs : step.isAbsent = true
  · rw [if_pos hs, if_pos hs]
    exact .pure rfl
  · rw [if_neg hs, if_neg hs]
    refine ((expr_agree h step).inside _).seq fun ⟨e, split⟩ => ?_
    cases split with
    | false => exact (defer_agree (.leaf h.refl _ _ _)).seq fun _ => .pure rfl
    | true => exact .pure rfl

theorem loop_agree (init cond step body : Node) {x x' y y' : Walk Bool} (hx : Agree R Eq x x')
    (hy : Agree R Eq y y') :
    Agree R Eq (loop env init cond step body x y) (loop env' init cond step body x' y') := by
  refine .inside _ ((loopInit_agree h init hx).seq fun initSplit => ?_)
  refine (loopTest_agree h cond).bind ?_
  rintro ⟨⟨cond', condSplit⟩, test⟩ ⟨_, test'⟩ ⟨rfl, htest⟩
  refine (loopStep_agree h step).bind ?_
  rintro ⟨⟨step', stepSplit⟩, stepList⟩ ⟨_, stepList'⟩ ⟨rfl, hstep⟩
  refine (region_agree h "body" body hy).bind ?_
  rintro ⟨bodySplit, bodyList⟩ ⟨_, bodyList'⟩ ⟨rfl, hbody⟩
  exact (defer_agree (.loop h.refl _ _ _ htest hstep hbody)).seq fun _ => .pure rfl

theorem declaration_agree (name : String) (params : List String) {x y : Walk Bool}
    (hx : Agree R Eq x y) :
    Agree R Eq (declaration name params x) (declaration name params y) := by
  refine .inside _ ((Agree.framed hx).bind ?_)
  rintro ⟨split, list⟩ ⟨_, list'⟩ ⟨-, hlist⟩
  exact (defer_agree (.defun h.refl _ _ hlist)).seq fun _ => .pure rfl

theorem passed_agree (n : Node) : Agree R Eq (passed env n) (passed env' n) :=
  (unsplit_agree env env' n).seq fun _ => (defer_agree (.leaf h.refl _ _ _)).seq fun _ => .pure rfl

end

section

variable {R : Bool → Bool → Prop} {env env' : Surface}

mutual

theorem stmt_agree (h : Surface.Alike R env env') (n : Node) :
    Agree R Eq (stmt env n) (stmt env' n) := by
  cases n with
  | stat e =>
    rw [stmt, stmt]
    exact statement_agree h (expr_agree h e)
  | var ds =>
    rw [stmt, stmt]
    exact bindings_agree h ds
  | block ns =>
    rw [stmt, stmt]
    exact stmts_agree h ns
  | splice ns =>
    rw [stmt, stmt]
    exact stmts_agree h ns
  | ifElse c yes no =>
    rw [stmt, stmt]
    exact branch_agree h c yes no (stmt_agree h yes) (stmt_agree h no)
  | forLoop init cond step body =>
    rw [stmt, stmt]
    exact loop_agree h init cond step body (stmt_agree h init) (stmt_agree h body)
  | defun name params ns =>
    rw [stmt, stmt]
    exact declaration_agree h name params (stmts_agree h ns)
  | breakTo _ | continueTo _ | debugger =>
    rw [stmt, stmt]
    exact (defer_agree (.leaf h.refl _ _ _)).seq fun _ => .pure rfl
  | label _ _ | whileLoop _ _ | doLoop _ _ | tryCatch _ _ _ | throw _ | switch _ _ | forIn _ _ _
  | withObject _ _ | ret _ | const _ =>
    rw [stmt, stmt]
    exact passed_agree h _
  | _ =>
    simp only [stmt]
    exact misplaced_agree _
termination_by structural n

theorem stmts_agree (h : Surface.Alike R env env') (ns : List Node) :
    Agree R Eq (stmts env ns) (stmts env' ns) := by
  cases ns with
  | nil =>
    rw [stmts, stmts]
    exact .pure rfl
  | cons n ns =>
    rw [stmts, stmts]
    exact (statementOr_agree h n (stmt_agree h n)).seq fun _ =>
      (stmts_agree h ns).seq fun _ => .pure rfl
termination_by structural ns

end

end

end Walk

end Resumable.Program
