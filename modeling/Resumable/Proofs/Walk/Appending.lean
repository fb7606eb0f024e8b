/-
  Resumable.Proofs.Walk.Appending — what is written behind a unit leaves its program alone.

  A walk goes from left to right and adds to what it has collected, so the walk of a longer unit
  goes through the state in which the walk of its beginning ends (`stmts_append_ok`).  The one thing
  that a walk looks up ahead are the declared names.  As long as the statements behind declare no
  name of their own, both walks start in the same state (`State.start_append`), and where every
  `var` stands in a statement position neither declares a name on the way (`Emits.names_known`).

  Main statement: `transform_keeps_beginning`.
-/
import Resumable.Proofs.Walk.Image

namespace Resumable

theorem Node.varsAll_append (xs ys : List Node) :
    varsAll (xs ++ ys) = varsAll xs ++ varsAll ys := by
  induction xs with
  | nil => rfl
  | cons x xs ih => rw [List.cons_append, varsAll, varsAll, ih, List.append_assoc]

namespace Program

namespace Walk

open Node (placed placedAll placedFields varsAll)

variable {env : Surface} {job : Job} {σ σ' : Scope} {s s' : State} {n : Node}
  {xs ys ns vs : List Node} {split : Bool} {code : List Instr}

/-! ## §1. Names that are known. -/

theorem placedAll_append :
    placedAll false (xs ++ ys) = (placedAll false xs && placedAll false ys) := by
  induction xs with
  | nil => rfl
  | cons x xs ih => rw [List.cons_append, placedAll, placedAll, ih, Bool.and_assoc]

theorem placedAll_one (h : n.placed false = true) : placedAll false [n] = true := by
  rw [placedAll, h]
  rfl

theorem placedAll_place (h : n.placed false = true) : placedAll false (placeParts n) = true := by
  cases n with
  | dot b f =>
    rw [placed] at h
    exact placedAll_one h
  | sub b i =>
    rw [placed, Bool.and_eq_true] at h
    rw [placeParts, placedAll, h.1, placedAll_one h.2]
    rfl
  | _ => rfl

/-- No operand of an expression has a `var` that the expression does not have. -/
theorem placedAll_parts (h : n.placed false = true) : placedAll false (parts n) = true := by
  cases n with
  | call c args =>
    rw [placed, Bool.and_eq_true] at h
    rw [parts, placedAll_append, h.2, Bool.and_true, calleeParts]
    split
    · exact placedAll_place h.1
    · exact placedAll_one h.1
  | unary side op e =>
    rw [placed] at h
    rw [parts, operandParts]
    split
    · exact placedAll_place h
    · exact placedAll_one h
  | assign op t v =>
    rw [placed, Bool.and_eq_true] at h
    rw [parts, placedAll_append, placedAll_place h.1, placedAll_one h.2]
    rfl
  | dot b f | sub b i => exact placedAll_place h
  | new c args =>
    rw [placed] at h
    exact h
  | binary op l r =>
    rw [placed, Bool.and_eq_true] at h
    rw [parts, placedAll, h.1, placedAll_one h.2]
    rfl
  | array es =>
    rw [placed] at h
    exact h
  | object ps =>
    rw [placed] at h
    rw [parts]
    induction ps with
    | nil => rfl
    | cons p ps ih =>
      obtain ⟨k, e⟩ := p
      rw [placedFields, Bool.and_eq_true] at h
      rw [List.map_cons, placedAll, h.1, ih h.2]
      rfl
  | _ => rfl

/-- Where every name is known from the beginning, a walk declares none. -/
theorem Emits.names_known (h : Emits env job σ vs split code σ') (hk : job.Known σ) :
    σ'.names = σ.names := by
  induction h with
  | reference | literal | operandsNil | void | stmtsNil | bindingsNil => rfl
  | copied => rw [copyScope_known hk nofun]
  | passed => rw [copyScope_known hk.1 fun _ => hk.2]
  | kept _ _ ih | captured _ _ ih | assigned _ _ ih | called _ ih =>
    exact ih (placedAll_parts hk)
  | operandsCons _ _ ih ih' =>
    rw [Job.Known, placedAll, Bool.and_eq_true] at hk
    exact (ih' hk.2).trans (ih hk.1)
  | effect _ ih | test _ ih => exact ih hk
  | leads hl _ ih => exact ih (hk.leads hl)
  | branch _ _ _ ih ih₁ ih₂ =>
    obtain ⟨hp, hv⟩ := hk
    rw [placed, Bool.and_eq_true, Bool.and_eq_true] at hp
    rw [Node.vars, List.append_subset] at hv
    have hcond := ih hp.1.1
    have hyes := ih₁ ⟨hp.1.2, hcond ▸ hv.1⟩
    have hno := ih₂ ⟨hp.2, (hyes.trans hcond) ▸ hv.2⟩
    exact hno.trans (hyes.trans hcond)
  | loop _ _ _ _ ih ih₁ ih₂ ih₃ =>
    obtain ⟨hp, hv⟩ := hk
    rw [placed, Bool.and_eq_true, Bool.and_eq_true, Bool.and_eq_true] at hp
    rw [Node.vars, List.append_subset] at hv
    have hinit := ih ⟨hp.1.1.1, hv.1⟩
    have htest := (ih₁ hp.1.1.2).trans hinit
    have hstep := (ih₂ hp.1.2).trans htest
    exact (ih₃ ⟨hp.2, hstep ▸ hv.2⟩).trans hstep
  | declaration _ ih =>
    obtain ⟨hp, hv⟩ := hk
    rw [placed] at hp
    rw [Node.vars] at hv
    exact ih ⟨hp, hv⟩
  | stmtsCons _ _ ih ih' =>
    obtain ⟨hp, hv⟩ := hk
    rw [placedAll, Bool.and_eq_true] at hp
    rw [varsAll, List.append_subset] at hv
    have hhead := ih ⟨hp.1, hv.1⟩
    exact (ih' ⟨hp.2, hhead ▸ hv.2⟩).trans hhead
  | bare _ ih =>
    obtain ⟨hp, hv⟩ := hk
    rw [placedFields, Bool.and_eq_true] at hp
    rw [List.map_cons, List.cons_subset] at hv
    rw [declare_known hv.1] at ih
    exact ih ⟨hp.2, hv.2⟩
  | bound _ _ ih ih' =>
    obtain ⟨hp, hv⟩ := hk
    rw [placedFields, Bool.and_eq_true] at hp
    rw [List.map_cons, List.cons_subset] at hv
    rw [declare_known hv.1] at ih
    have hvalue := ih hp.1
    exact (ih' ⟨hp.2, hvalue ▸ hv.2⟩).trans hvalue

/-! ## §2. Statements behind other ones. -/

/-- A walk of statements goes on where the walk of those before them ended. -/
theorem stmts_append_ok {b : Bool} :
    stmts env (xs ++ ys) s = (.ok b, s') ↔ ∃ b₁ s₁ b₂, stmts env xs s = (.ok b₁, s₁) ∧
      stmts env ys s₁ = (.ok b₂, s') ∧ b = (b₂ || b₁) := by
  induction xs generalizing s s' b with
  | nil =>
    rw [List.nil_append, stmts]
    constructor
    · exact fun h => ⟨false, s, b, rfl, h, (Bool.or_false b).symm⟩
    · rintro ⟨b₁, s₁, b₂, hnil, hys, rfl⟩
      cases hnil
      rw [Bool.or_false]
      exact hys
  | cons x xs ih =>
    rw [List.cons_append, stmts, stmts]
    simp only [bind_ok, ih]
    constructor
    · rintro ⟨bx, sx, hx, _, s₁, ⟨b₁, s₂, b₂, hxs, hys, rfl⟩, hb⟩
      cases hb
      exact ⟨b₁ || bx, s₂, b₂, ⟨bx, sx, hx, b₁, s₂, hxs, rfl⟩, hys, Bool.or_assoc _ _ _⟩
    · rintro ⟨_, s₁, b₂, ⟨bx, sx, hx, b₁, s₂, hxs, hb⟩, hys, rfl⟩
      cases hb
      exact ⟨bx, sx, hx, b₂ || b₁, s', ⟨b₁, s₁, b₂, hxs, hys, rfl⟩,
        by rw [Bool.or_assoc]; rfl⟩

end Walk

/-! ## §3. Units. -/

/-- Names that are known already are not declared again. -/
theorem Scope.declareAll_known {σ : Scope} {xs : List String} (h : xs ⊆ σ.names) :
    σ.declareAll xs = σ := by
  unfold declareAll
  induction xs with
  | nil => rfl
  | cons x xs ih =>
    rw [List.cons_subset] at h
    rw [List.foldl_cons, Walk.declare_known h.1]
    exact ih h.2

/-- Statements that declare no name of their own leave the start of a walk as it is. -/
theorem State.start_append (naming : Naming) {xs ys : List Node}
    (h : Node.varsAll ys ⊆ Node.varsAll xs) :
    State.start naming (xs ++ ys) = State.start naming xs := by
  have hscope : naming.scope (xs ++ ys) = naming.scope xs := by
    unfold Naming.scope
    rw [Node.varsAll_append, Scope.declareAll, List.foldl_append]
    exact Scope.declareAll_known fun x hx => Scope.mem_declareAll.mpr (.inr (h hx))
  show ({ scope := naming.scope (xs ++ ys)
          remarks := [.declared (naming.scope (xs ++ ys)).names] } : State) = _
  rw [hscope]
  rfl

/-- A unit is transformed if its walk ends well and leaves its frames balanced. -/
theorem transform_ok {naming : Naming} {isAsync : String → Bool} {body : List Node}
    {t : Transformed} : (transform naming isAsync (.toplevel body)).1 = .ok t ↔
      ∃ b s, walkUnit naming isAsync body = (.ok b, s) ∧ s.finish = .ok t := by
  rcases hw : walkUnit naming isAsync body with ⟨r, s⟩
  simp only [transform, transformBody, hw]
  cases r with
  | error e =>
    constructor
    · intro h
      cases h
    · rintro ⟨b, s₁, h, -⟩
      cases h
  | ok b =>
    constructor
    · intro h
      refine ⟨b, s, rfl, ?_⟩
      cases hf : s.finish with
      | error e =>
        rw [hf] at h
        cases h
      | ok t' =>
        rw [hf] at h
        cases h
        rfl
    · rintro ⟨b₁, s₁, h, hf⟩
      cases h
      rw [hf]

/-- What a finished walk hands over. -/
structure State.Finished (s : State) (t : Transformed) : Prop where
  program : t.program = s.frames.top.content
  locals : t.locals = s.scope.names
  temps : t.stats.temps = s.scope.temps
  calls : t.stats.calls = s.calls
  asyncCalls : t.stats.asyncCalls = s.asyncCalls

theorem State.finished {s : State} {t : Transformed} (h : s.finish = .ok t) : s.Finished t := by
  unfold State.finish at h
  split at h
  · next hb =>
    have hbelow : s.frames.below = [] := List.isEmpty_iff.mp hb
    have hroot : s.frames.root.1 = s.frames.top.content := by
      unfold Frames.root Frames.rootFrame
      rw [hbelow]
      rfl
    cases h
    exact ⟨hroot, rfl, rfl, rfl, rfl⟩
  · cases h

/-- Statements written behind a unit that declare no name of their own leave its program alone: the
    program of the beginning is a beginning of the program, with the same locals and no more temps
    and calls. -/
theorem transform_keeps_beginning (naming : Naming) (isAsync : String → Bool) (xs ys : List Node)
    (t : Transformed) (h : (transform naming isAsync (.toplevel (xs ++ ys))).1 = .ok t)
    (hxs : Node.placedAll true xs = true) (hys : Node.placedAll true ys = true)
    (hnames : Reference.outerNames (Node.referencesAll naming.container [] ys) ⊆
      Reference.outerNames (Node.referencesAll naming.container [] xs)) :
    ∃ t₀, (transform naming isAsync (.toplevel xs)).1 = .ok t₀ ∧ t₀.program <+: t.program ∧
      t₀.locals = t.locals ∧ t₀.stats.temps ≤ t.stats.temps ∧ t₀.stats.calls ≤ t.stats.calls ∧
      t₀.stats.asyncCalls ≤ t.stats.asyncCalls := by
  have hvars : Node.varsAll ys ⊆ Node.varsAll xs := by
    rw [Node.outerNames_placedAll true [] ys hys, Node.outerNames_placedAll true [] xs hxs]
      at hnames
    exact hnames
  obtain ⟨b, s, hwalk, hfinish⟩ := transform_ok.mp h
  rw [walkUnit, State.start_append naming hvars] at hwalk
  obtain ⟨s₂, hall, rfl⟩ := Walk.inside_ok.mp hwalk
  obtain ⟨b₁, s₁, b₂, hfirst, hrest, -⟩ := Walk.stmts_append_ok.mp hall
  -- the walk of the beginning ends well, in the state from which the walk of the whole goes on
  have hbeginning : walkUnit naming isAsync xs =
      (.ok b₁, { s₁ with trail := s₁.trail.leave }) := Walk.inside_ok.mpr ⟨s₁, hfirst, rfl⟩
  obtain ⟨t₀, hfinish₀, -⟩ := finish_walkUnit hbeginning
  refine ⟨t₀, transform_ok.mpr ⟨b₁, _, hbeginning, hfinish₀⟩, ?_⟩
  have done := State.finished hfinish
  have done₀ := State.finished hfinish₀
  obtain ⟨vs₁, code₁, emits₁, -, -⟩ := Walk.stmts_does hfirst
  obtain ⟨vs₂, code₂, emits₂, extends₂, counted₂⟩ := Walk.stmts_does hrest
  have hknown : Node.varsAll ys ⊆ s₁.scope.names := fun x hx =>
    emits₁.grows.names.subset (Scope.mem_declareAll.mpr (.inr (hvars hx)))
  have hscope : s₂.scope.names = s₁.scope.names := emits₂.names_known ⟨hys, hknown⟩
  refine ⟨?_, ?_, ?_, ?_, ?_⟩
  · rw [done.program, done₀.program]
    exact ⟨code₂, extends₂.content.symm⟩
  · rw [done.locals, done₀.locals]
    exact hscope.symm
  · rw [done.temps, done₀.temps]
    exact emits₂.grows.temps
  · rw [done.calls, done₀.calls]
    exact counted₂.calls ▸ Nat.le_add_right _ _
  · rw [done.asyncCalls, done₀.asyncCalls]
    exact counted₂.asyncCalls ▸ Nat.le_add_right _ _

/-- A deferred binding and a branch with a call in a side of it, and behind them a loop that binds
    the name once more: `var x = 1 + f(x); if (x) g(x); else x = 0;` and
    `for (var x = 0; x < h(); x++) y = x;`. -/
theorem transform_keeps_beginning_of_binding :
    let xs : List Node := [.var [("x", .binary "+" (.num "1") (.call (.name "f") [.name "x"]))],
      .ifElse (.name "x") (.stat (.call (.name "g") [.name "x"]))
        (.stat (.assign "" (.name "x") (.num "0")))]
    let ys : List Node := [.forLoop (.var [("x", .num "0")])
      (.binary "<" (.name "x") (.call (.name "h") [])) (.unary .after "++" (.name "x"))
      (.stat (.assign "" (.name "y") (.name "x")))]
    ∃ t, (transform {} (fun _ => false) (.toplevel (xs ++ ys))).1 = .ok t ∧
      Node.placedAll true xs = true ∧ Node.placedAll true ys = true ∧
      Reference.outerNames (Node.referencesAll "$$locals" [] ys) ⊆
        Reference.outerNames (Node.referencesAll "$$locals" [] xs) ∧
      ∃ t₀, (transform {} (fun _ => false) (.toplevel xs)).1 = .ok t₀ ∧ t₀.program <+: t.program ∧
        t₀.locals = t.locals ∧ t₀.stats.temps ≤ t.stats.temps ∧
        t₀.stats.calls ≤ t.stats.calls ∧ t₀.stats.asyncCalls ≤ t.stats.asyncCalls := by
  intro xs ys
  obtain ⟨t, ht⟩ : ∃ t, (transform {} (fun _ => false) (.toplevel (xs ++ ys))).1 = .ok t :=
    exists_of_isOk (by decide +kernel)
  have hxs : Node.placedAll true xs = true := by decide
  have hys : Node.placedAll true ys = true := by decide
  have hnames : Reference.outerNames (Node.referencesAll "$$locals" [] ys) ⊆
      Reference.outerNames (Node.referencesAll "$$locals" [] xs) := by decide
  exact ⟨t, ht, hxs, hys, hnames,
    transform_keeps_beginning {} (fun _ => false) xs ys t ht hxs hys hnames⟩

end Program

end Resumable
