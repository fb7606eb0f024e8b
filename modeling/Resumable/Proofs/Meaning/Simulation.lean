/-
  Resumable.Proofs.Meaning.Simulation — instructions follow statements.

  `Simulates R x y` says that whenever `x` has an answer, `y` has the same one, and related worlds
  become related worlds.  Every rule of a derivation for statements is put together from such
  simulations.  Between statements no temp matters, so the relation is `Agree`: the names of the
  source have their values and the same calls were made.  A loop keeps it from one test to the next.

  Main statement: `emits_simulates`.
-/
import Resumable.Proofs.Meaning.Values

namespace Resumable.Meaning

open Program (Naming Scope Surface Instr)
open Program.Walk

/-! ## §1. Simulations. -/

/-- The second action follows the first. -/
def Simulates {V α : Type} (R : World V → World V → Prop) (x y : Action V α) : Prop :=
  ∀ w m a w', R w m → x w = some (a, w') → ∃ m', y m = some (a, m') ∧ R w' m'

section

variable {V α β : Type} {R : World V → World V → Prop}

theorem Simulates.pure (a : α) : Simulates R (Pure.pure a : Action V α) (Pure.pure a) := by
  intro w m b w' hR h
  obtain ⟨rfl, rfl⟩ := pure_some.mp h
  exact ⟨m, rfl, hR⟩

theorem Simulates.bind {x y : Action V α} {f g : α → Action V β} (h : Simulates R x y)
    (hf : ∀ a, Simulates R (f a) (g a)) : Simulates R (x >>= f) (y >>= g) := by
  intro w m b w' hR hx
  obtain ⟨a, w₁, ha, hb⟩ := bind_some.mp hx
  obtain ⟨m₁, ha', hR₁⟩ := h w m a w₁ hR ha
  obtain ⟨m₂, hb', hR₂⟩ := hf a w₁ m₁ b w' hR₁ hb
  exact ⟨m₂, bind_some.mpr ⟨a, m₁, ha', hb'⟩, hR₂⟩

theorem iterate_done {test : Action V Bool} {body : Action V Unit} {w w₁ : World V}
    (h : test w = some (false, w₁)) : Action.iterate test body w = some ((), w₁) := by
  rw [Action.iterate, h]
  rfl

theorem iterate_again {test : Action V Bool} {body : Action V Unit} {w w₁ w₂ : World V}
    (h : test w = some (true, w₁)) (hb : body w₁ = some ((), w₂)) :
    Action.iterate test body w = Action.iterate test body w₂ := by
  rw [Action.iterate, h]
  show (body w₁ >>= fun p => _) = _
  rw [hb]
  rfl

/-- A loop follows a loop if its parts do: by induction on the number of passes. -/
theorem Simulates.iterate {test test' : Action V Bool} {body body' : Action V Unit}
    (ht : Simulates R test test') (hb : Simulates R body body') :
    Simulates R (Action.iterate test body) (Action.iterate test' body') := by
  have hall : ∀ w r, Action.iterate test body w = some r →
      ∀ m, R w m → ∃ m', Action.iterate test' body' m = some ((), m') ∧ R r.2 m' := by
    -- `loop` stands for the passes still to come
    refine Action.iterate.partial_correctness test body _ ?_
    intro loop ih w r h m hR
    rcases htest : test w with _ | ⟨again, w₁⟩
    · rw [htest] at h
      cases h
    obtain ⟨m₁, htest', hR₁⟩ := ht w m again w₁ hR htest
    rw [htest] at h
    cases again with
    | false =>
      cases h
      exact ⟨m₁, iterate_done htest', hR₁⟩
    | true =>
      change (body w₁ >>= fun p => _) = some r at h
      rcases hbody : body w₁ with _ | ⟨⟨⟩, w₂⟩
      · rw [hbody] at h
        cases h
      obtain ⟨m₂, hbody', hR₂⟩ := hb w₁ m₁ () w₂ hR₁ hbody
      rw [hbody] at h
      rw [iterate_again htest' hbody']
      exact ih w₂ r h m₂ hR₂
  intro w m a w' hR h
  exact hall w (a, w') h m hR

end

/-! ## §2. Values in statements. -/

section

variable {V : Type} {host : Host V} {naming : Naming} {locals : List String}
  {free callable : String → Prop} {lo hi : Nat} {n v e e' : Node} {code xs ys : List Instr}
  {σ : Scope} {x : String} {w m : World V}

/-- The value of an expression, at hand after its code was run. -/
theorem StandsFor.value (h : StandsFor host naming locals free lo hi [n] [v] code) {a : V}
    {w' : World V} (hagree : Agree naming locals free w m)
    (ha : eval host sourcePlace n w = some (a, w')) :
    w'.cells = w.cells ∧ ∃ m₁, runAll host naming code m = some ((), m₁) ∧
      Agree naming locals free w' m₁ ∧ eval host (programPlace naming) v m₁ = some (a, m₁) := by
  obtain ⟨hcells, m₁, hrun, hhistory, hsteady, hlater⟩ :=
    h w [a] w' m hagree (evalAll_one.mpr ⟨a, ha, rfl⟩)
  obtain ⟨a', ha', heq⟩ := evalAll_one.mp (hlater m₁ (.refl _ _))
  cases heq
  exact ⟨hcells, m₁, hrun, hagree.follow hcells hsteady hhistory, ha'⟩

theorem Agree.weaken {free' : String → Prop} (h : Agree naming locals free w m)
    (hf : ∀ y, free' y → free y) : Agree naming locals free' w m :=
  ⟨fun y hy => h.names y (hf y hy), h.history⟩

/-- A name gets a value; it does not matter what the program had in its place. -/
theorem Agree.set (h : Agree naming locals (fun y => free y ∧ y ≠ x) w m) (hx : Free naming x)
    (a : V) : Agree naming locals free (w.set [x] a) (m.set (cell naming locals x) a) := by
  refine ⟨fun y hy => ?_, h.history⟩
  by_cases hyx : y = x
  · rw [hyx, World.set_self, World.set_self]
  · have hsource : ¬ [x] <+: [y] := by simpa using Ne.symm hyx
    rw [w.set_of_not_prefix a hsource, m.set_of_not_prefix a (cell_not_prefix_cell hx hyx)]
    exact h.names y ⟨hy, hyx⟩

/-- The place of a name gets a value that nobody looks at. -/
theorem Agree.scratch (h : Agree naming locals free w m) (hx : Free naming x) (a : V) :
    Agree naming locals (fun y => free y ∧ y ≠ x) w (m.set (cell naming locals x) a) := by
  refine ⟨fun y hy => ?_, h.history⟩
  rw [m.set_of_not_prefix a (cell_not_prefix_cell hx hy.2)]
  exact h.names y hy.1

theorem effect_of_eval {isPlace : List String → Bool} {a : V} {w' : World V}
    (h : eval host isPlace n w = some (a, w')) : effect host isPlace n w = some ((), w') := by
  cases n with
  | assign op t e => cases h
  | _ => exact bind_some.mpr ⟨a, w', h, rfl⟩

theorem Value.effect_some {isPlace : List String → Bool} {w' : World V}
    (hn : Value free callable n) (h : effect host isPlace n w = some ((), w')) :
    ∃ a, eval host isPlace n w = some (a, w') := by
  cases hn <;>
    · obtain ⟨a, w₁, ha, hw⟩ := bind_some.mp h
      obtain ⟨-, rfl⟩ := pure_some.mp hw
      exact ⟨a, ha⟩

theorem simulates_append {R : World V → World V → Prop} {z y : Action V Unit}
    (hx : Simulates R z (runAll host naming xs))
    (hy : Simulates R y (runAll host naming ys)) :
    Simulates R (z >>= fun _ => y) (runAll host naming (xs ++ ys)) := by
  intro w m a w' hR h
  obtain ⟨_, w₁, hz, hy'⟩ := bind_some.mp h
  obtain ⟨m₁, hm₁, hR₁⟩ := hx w m _ w₁ hR hz
  obtain ⟨m₂, hm₂, hR₂⟩ := hy w₁ m₁ a w' hR₁ hy'
  exact ⟨m₂, runAll_append hm₁ hm₂, hR₂⟩

/-- A value that is evaluated for its calls. -/
theorem StandsFor.simulates_effect {split : Bool} (hn : Value free callable n)
    (h : StandsFor host naming locals free lo hi [n] [v] code) :
    Simulates (Agree naming locals free) (effect host sourcePlace n)
      (runAll host naming (code ++ unsplitStat split v)) := by
  intro w m _ w' hagree heffect
  obtain ⟨a, ha⟩ := hn.effect_some heffect
  obtain ⟨-, m₁, hrun, hagree₁, hv⟩ := h.value hagree ha
  refine ⟨m₁, runAll_append hrun ?_, hagree₁⟩
  cases split with
  | true => exact runAll_nil
  | false =>
    refine runAll_one ?_
    rw [run_stat]
    exact effect_of_eval hv

theorem write_some {p : List String} {a : V} {w' : World V} :
    write p a w = some ((), w') ↔ w' = w.set p a := by
  unfold write
  rw [Option.some.injEq, Prod.mk.injEq]
  exact ⟨fun h => h.2.symm, fun h => ⟨rfl, h.symm⟩⟩

theorem effect_plain {isPlace : List String → Bool} {t : Node} {p : List String} {w' : World V}
    (ht : place? isPlace t = some p) :
    effect host isPlace (.assign "" t e) w = some ((), w') ↔
      ∃ a w₁, eval host isPlace e w = some (a, w₁) ∧ w' = w₁.set p a := by
  rw [effect, ht]
  simp only [if_true, bind_some, write_some]

theorem effect_compound {isPlace : List String → Bool} {op : String} {t : Node}
    {p : List String} {w' : World V} (ht : place? isPlace t = some p) (hop : op ≠ "") :
    effect host isPlace (.assign op t e) w = some ((), w') ↔
      ∃ old a w₁ new, w.cells p = some old ∧ eval host isPlace e w = some (a, w₁) ∧
        host.binary op old a = some new ∧ w' = w₁.set p new := by
  rw [effect, ht]
  simp only [if_neg hop, bind_some, read_some, lift_some, write_some]
  constructor
  · rintro ⟨old, _, ⟨hold, rfl⟩, a, w₁, ha, new, _, ⟨hnew, rfl⟩, hw⟩
    exact ⟨old, a, w₁, new, hold, ha, hnew, hw⟩
  · rintro ⟨old, a, w₁, new, hold, ha, hnew, hw⟩
    exact ⟨old, w, ⟨hold, rfl⟩, a, w₁, ha, new, w₁, ⟨hnew, rfl⟩, hw⟩

/-- An assignment to a name.  The name is read before the value of a compound assignment in the
    source and after it in the program, but computing the value changes no name. -/
theorem StandsFor.simulates_assign {op : String}
    (h : StandsFor host naming locals free lo hi [e] [e'] code) (hfit : Fits naming locals σ)
    (hx : free x) (hfree : Free naming x) :
    Simulates (Agree naming locals free) (effect host sourcePlace (.assign op (.name x) e))
      (runAll host naming (code ++ [.stat (.assign op (σ.resolve x) e')])) := by
  intro w m _ w' hagree heffect
  have hname : place? sourcePlace (.name x) = some [x] := rfl
  have hplace := hfit.place?_resolve x
  by_cases hop : op = ""
  · rw [hop] at heffect ⊢
    obtain ⟨a, w₁, ha, rfl⟩ := (effect_plain hname).mp heffect
    obtain ⟨-, m₁, hrun, hagree₁, hv⟩ := h.value hagree ha
    refine ⟨_, runAll_append hrun (runAll_one ?_), (hagree₁.weaken fun _ hy => hy.1).set hfree a⟩
    rw [run_stat, effect_plain hplace]
    exact ⟨a, m₁, hv, rfl⟩
  · obtain ⟨old, a, w₁, new, hold, ha, hnew, rfl⟩ := (effect_compound hname hop).mp heffect
    obtain ⟨hcells, m₁, hrun, hagree₁, hv⟩ := h.value hagree ha
    refine ⟨_, runAll_append hrun (runAll_one ?_),
      (hagree₁.weaken fun _ hy => hy.1).set hfree new⟩
    rw [run_stat, effect_compound hplace hop]
    refine ⟨old, a, m₁, new, ?_, hv, hnew, rfl⟩
    rw [hagree₁.names x hx, hcells, hold]

end

/-! ## §3. Statements. -/

/-- What a job of statements does. -/
def meaning {V : Type} (host : Host V) : Job → Action V Unit
  | .stmt n | .region n | .step n => exec host n
  | .effect n => effect host sourcePlace n
  | .stmts ns => execAll host ns
  | .bindings ds => bindAll host ds
  | .expr _ | .operands _ | .test _ => failure

/-- A job of statements of the fragment. -/
def InFragment (free callable : String → Prop) : Job → Prop
  | .stmt n => Stmt free callable n
  | .region n => n ≠ .absent → Stmt free callable n
  | .step n => n ≠ .absent → Effect free callable n
  | .effect n => Effect free callable n
  | .stmts ns => ∀ n ∈ ns, Stmt free callable n
  | .bindings ds => ∀ d ∈ ds, Binding free callable d
  | .expr _ | .operands _ | .test _ => False

/-- The names that a job declares. -/
def declares : Job → List String
  | .stmt n | .region n => n.vars
  | .stmts ns => Node.varsAll ns
  | .bindings ds => ds.map (·.1)
  | .step _ | .effect _ | .expr _ | .operands _ | .test _ => []

section

variable {V : Type} {host : Host V} {naming : Naming} {locals : List String} {temps : Nat}
  {free callable : String → Prop} {env : Surface} {job : Job} {σ σ' σ₁ : Scope} {n v : Node}
  {vs : List Node} {split : Bool} {code : List Instr}

/-- An expression as a statement is evaluated for its effect. -/
theorem exec_of_isExpression (h : n.isExpression = true) :
    exec host n = effect host sourcePlace n := by
  rw [exec, if_pos h]
  all_goals
    intros
    subst_vars
    cases h

theorem not_emits_stmt_absent : ¬ Emits env (.stmt .absent) σ vs split code σ' := by
  intro h
  cases h with
  | leads hl =>
    cases hl with
    | expression h => cases h
  | void hv => cases hv
  | passed h => cases h

theorem not_emits_expr_absent : ¬ Emits env (.expr .absent) σ vs split code σ' := by
  intro h
  cases h with
  | literal hf | copied hf | captured hf => cases hf
  | kept hf => rcases hf with hf | hf <;> cases hf
  | leads hl => cases hl
  | void hv => cases hv

/-- A value in which nothing is called is not split. -/
theorem emits_unsplit (h : Emits env job σ vs split code σ') :
    ∀ ns, values? job = some ns → (∀ n ∈ ns, Value free (fun _ => False) n) → split = false := by
  induction h with
  | reference | literal | copied | kept | operandsNil => exact fun _ _ _ => rfl
  | @captured σ σ' n vs code hf ops ih =>
    rintro _ ⟨⟩ hns
    exact absurd (ih _ rfl ((hns n List.mem_cons_self).parts hf)) (by decide)
  | assigned =>
    rintro _ ⟨⟩ hns
    cases hns _ List.mem_cons_self
  | called =>
    rintro _ ⟨⟩ hns
    cases hns _ List.mem_cons_self with
    | call hf => exact hf.elim
  | @operandsCons σ σ₁ σ₂ n v ns vs split split' code code' head tail ih ih' =>
    rintro _ ⟨⟩ hns
    have hhead : split = false := by
      refine ih [n] rfl fun m hm => ?_
      rw [List.mem_singleton.mp hm]
      exact hns n List.mem_cons_self
    have htail : split' = false := ih' ns rfl fun m hm => hns m (List.mem_cons_of_mem _ hm)
    rw [hhead, htail]
    rfl
  | leads hl => cases hl <;> rintro _ ⟨⟩
  | void hv => cases hv <;> rintro _ ⟨⟩
  | _ => rintro _ ⟨⟩

/-- What the names of a walk have to do with those of a unit. -/
structure Terms (env : Surface) (naming : Naming) (locals : List String) (temps : Nat)
    (free callable : String → Prop) : Prop where
  slot : env.returnValue = Naming.dotted naming.returnValue
  apart : Apart naming locals temps
  unreserved : ∀ x, free x → Free naming x
  undeclared : ∀ f, callable f → free f ∧ f ∉ locals

theorem Terms.standsFor (terms : Terms env naming locals temps free callable) (host : Host V)
    (hfit : Fits naming locals σ) (hn : Value free callable n)
    (h : Emits env (.expr n) σ [v] split code σ') (htemps : σ'.temps ≤ temps) :
    Fits naming locals σ' ∧ StandsFor host naming locals free σ.temps σ'.temps [n] [v] code := by
  obtain ⟨hfit', -, hstands⟩ := emits_standsFor terms.slot terms.apart terms.unreserved
    (fun f hf => (terms.undeclared f hf).1) h [n] rfl (by simpa using hn) hfit htemps
  exact ⟨hfit', hstands⟩

/-- The names that may be used in a value that is bound to one of them. -/
theorem Terms.except {x : String} (terms : Terms env naming locals temps free callable)
    (hx : x ∈ locals) : Terms env naming locals temps (fun y => free y ∧ y ≠ x) callable := by
  refine ⟨terms.slot, terms.apart, fun y hy => terms.unreserved y hy.1, fun f hf => ?_⟩
  obtain ⟨hfree, hlocal⟩ := terms.undeclared f hf
  refine ⟨⟨hfree, ?_⟩, hlocal⟩
  rintro rfl
  exact hlocal hx

theorem effect_simulates (terms : Terms env naming locals temps free callable)
    (hfit : Fits naming locals σ) (hn : Effect free callable n)
    (h : Emits env (.expr n) σ [v] split code σ') (htemps : σ'.temps ≤ temps) :
    Fits naming locals σ' ∧
      Simulates (Agree naming locals free) (effect host sourcePlace n)
        (runAll host naming (code ++ unsplitStat split v)) := by
  cases hn with
  | value hn =>
    obtain ⟨hfit', hstands⟩ := terms.standsFor host hfit hn h htemps
    exact ⟨hfit', hstands.simulates_effect hn⟩
  | @assign op x e hx he =>
    -- split or not, the assignment follows the code of its value
    have hoperand : ∀ {vs split code}, Emits env (.operands [e]) σ vs split code σ' →
        Fits naming locals σ' ∧
          Simulates (Agree naming locals free) (effect host sourcePlace (.assign op (.name x) e))
            (runAll host naming (code ++ [.stat (assemble σ (.assign op (.name x) e) vs)])) := by
      intro vs split code ops
      obtain ⟨hfit', -, hstands⟩ := emits_standsFor terms.slot terms.apart terms.unreserved
        (fun f hf => (terms.undeclared f hf).1) ops [e] rfl (by simpa using he) hfit htemps
      obtain ⟨e', rfl⟩ := List.length_eq_one_iff.mp ops.operands_length
      exact ⟨hfit', hstands.simulates_assign hfit hx (terms.unreserved x hx)⟩
    cases h with
    | literal hf | copied hf => cases hf
    | kept hf ops => exact hoperand ops
    | captured hf => cases hf
    | assigned ht ops =>
      rw [unsplitStat, if_pos rfl, List.append_nil]
      exact hoperand ops
    | leads hl => cases hl
    | void hv => cases hv

theorem Fits.place?_field {x : String} (hfit : Fits naming locals σ) (hx : x ∈ locals) :
    place? (programPlace naming) (σ.field x) = some (cell naming locals x) := by
  have hresolve := hfit.place?_resolve x
  rwa [Scope.resolve, if_pos] at hresolve
  rw [Scope.declared, hfit.names]
  exact List.contains_iff_mem.mpr hx

/-- A binding.  The null in front of a split value is never seen, since the value does not use the
    name. -/
theorem binding_simulates {x : String} (terms : Terms env naming locals temps free callable)
    (host : Host V) (hfit : Fits naming locals σ) (hx : x ∈ locals)
    (hn : Binding free callable (x, n)) (h : Emits env (.expr n) σ [v] split code σ')
    (htemps : σ'.temps ≤ temps) :
    Fits naming locals σ' ∧
      Simulates (Agree naming locals free)
        (do let a ← eval host sourcePlace n; write [x] a)
        (runAll host naming (placeholder split (σ.field x) ++ code ++ [.set (σ.field x) v])) := by
  have hplace := hfit.place?_field hx
  have hfree := terms.unreserved x hn.bound
  cases split with
  | false =>
    obtain ⟨hfit', hstands⟩ := terms.standsFor host hfit hn.value_free h htemps
    refine ⟨hfit', ?_⟩
    intro w m _ w' hagree hbind
    obtain ⟨a, w₁, ha, hw⟩ := bind_some.mp hbind
    obtain rfl := write_some.mp hw
    obtain ⟨-, m₁, hrun, hagree₁, hv⟩ := hstands.value hagree ha
    exact ⟨_, runAll_append hrun (runAll_one (run_set hplace hv)),
      (hagree₁.weaken fun _ hy => hy.1).set hfree a⟩
  | true =>
    have hvalue : Value (fun y => free y ∧ y ≠ x) callable n := by
      rcases hn.value with hv | hv
      · exact absurd (emits_unsplit h [n] rfl (by simpa using hv)) (by decide)
      · exact hv
    -- with the null in its place the name agrees no more, but the value does not use it
    obtain ⟨hfit', hstands⟩ := (terms.except hx).standsFor host hfit hvalue h htemps
    refine ⟨hfit', ?_⟩
    intro w m _ w' hagree hbind
    obtain ⟨a, w₁, ha, hw⟩ := bind_some.mp hbind
    obtain rfl := write_some.mp hw
    have hnull : run host naming (.set (σ.field x) .null) m =
        some ((), m.set (cell naming locals x) (host.keyword "null")) :=
      run_set hplace (by rw [Node.null, eval]; rfl)
    obtain ⟨-, m₁, hrun, hagree₁, hv⟩ :=
      hstands.value (hagree.scratch hfree (host.keyword "null")) ha
    exact ⟨_, runAll_append (runAll_append (runAll_one hnull) hrun)
      (runAll_one (run_set hplace hv)), hagree₁.set hfree a⟩

/-- A condition and the branch behind it. -/
theorem branch_simulates {c yes no : Node} {yesList noList : List Instr} {hasElse : Bool}
    {shape : Program.Shape} {yesTemp noTemp : Option String} {lo hi : Nat}
    (hcond : StandsFor host naming locals free lo hi [c] [v] code)
    (hyes : Simulates (Agree naming locals free) (exec host yes) (runAll host naming yesList))
    (hno : Simulates (Agree naming locals free) (exec host no) (runAll host naming noList)) :
    Simulates (Agree naming locals free) (exec host (.ifElse c yes no))
      (runAll host naming
        (code ++ [.branch v yesList noList hasElse shape yesTemp noTemp])) := by
  intro w m a w' hagree hexec
  rw [exec] at hexec
  obtain ⟨b, w₁, hb, hexec⟩ := bind_some.mp hexec
  obtain ⟨-, m₁, hrun, hagree₁, hv⟩ := hcond.value hagree hb
  have hside : ∃ m₂, (if host.truthy b then runAll host naming yesList
      else runAll host naming noList) m₁ = some ((), m₂) ∧ Agree naming locals free w' m₂ := by
    split at hexec
    · next ht =>
      rw [if_pos ht]
      exact hyes w₁ m₁ a w' hagree₁ hexec
    · next ht =>
      rw [if_neg ht]
      exact hno w₁ m₁ a w' hagree₁ hexec
  obtain ⟨m₂, hside, hagree₂⟩ := hside
  refine ⟨m₂, runAll_append hrun (runAll_one ?_), hagree₂⟩
  rw [run]
  exact bind_some.mpr ⟨b, m₁, hv, hside⟩

theorem runTest_append {c : Node} {b : Bool} {m m₁ m₂ : World V}
    (h : runAll host naming code m = some ((), m₁))
    (hc : (host.truthy <$> eval host (programPlace naming) c) m₁ = some (b, m₂)) :
    runTest host naming (code ++ [.leaf "test" c false]) m = some (b, m₂) := by
  induction code generalizing m with
  | nil =>
    rw [runAll_nil] at h
    cases h
    rw [List.nil_append, runTest]
    · exact hc
    · rfl
  | cons i code ih =>
    obtain ⟨m₃, hi, hcode⟩ := runAll_cons.mp h
    have hrest : runTest host naming (i :: (code ++ [.leaf "test" c false])) =
        (do run host naming i; runTest host naming (code ++ [.leaf "test" c false])) := by
      rw [runTest]
      intro _ _ hnil
      simp at hnil
    rw [List.cons_append, hrest]
    exact bind_some.mpr ⟨(), m₃, hi, ih hcode⟩

/-- The condition of a loop and its list. -/
theorem test_simulates (terms : Terms env naming locals temps free callable)
    (hfit : Fits naming locals σ) (hn : n ≠ .absent → Value free callable n)
    (h : Emits env (.test n) σ vs split code σ') (htemps : σ'.temps ≤ temps) :
    Fits naming locals σ' ∧
      Simulates (Agree naming locals free) (holds host n) (runTest host naming code) := by
  cases h with
  | leads hl => cases hl
  | void hv =>
    -- a condition that was left out holds, and so does an empty list
    cases hv
    refine ⟨hfit, ?_⟩
    rw [runTest]
    exact .pure true
  | @test _ _ _ v _ code value =>
    have hne : n ≠ .absent := by
      rintro rfl
      exact not_emits_expr_absent value
    obtain ⟨hfit', hstands⟩ := terms.standsFor host hfit (hn hne) value htemps
    refine ⟨hfit', ?_⟩
    intro w m b w' hagree hholds
    unfold holds at hholds
    rw [if_neg (mt Node.isAbsent_eq_true_iff.mp hne)] at hholds
    obtain ⟨a, ha, rfl⟩ := map_some.mp hholds
    obtain ⟨-, m₁, hrun, hagree₁, hv⟩ := hstands.value hagree ha
    exact ⟨m₁, runTest_append hrun (map_some.mpr ⟨a, hv, rfl⟩), hagree₁⟩

/-- A loop behind its initializer. -/
theorem loop_simulates {init cond step body c e : Node} {condSplit : Bool}
    {initList testList stepList bodyList : List Instr}
    (hinit : Simulates (Agree naming locals free) (exec host init) (runAll host naming initList))
    (htest : Simulates (Agree naming locals free) (holds host cond) (runTest host naming testList))
    (hstep : Simulates (Agree naming locals free) (exec host step) (runAll host naming stepList))
    (hbody : Simulates (Agree naming locals free) (exec host body)
      (runAll host naming bodyList)) :
    Simulates (Agree naming locals free) (exec host (.forLoop init cond step body))
      (runAll host naming (initList ++ [.loop c testList stepList bodyList condSplit e])) := by
  have hloop : Simulates (Agree naming locals free)
      (Action.iterate (holds host cond) (do exec host body; exec host step))
      (runAll host naming [.loop c testList stepList bodyList condSplit e]) := by
    intro w m a w' hagree h
    obtain ⟨m', hrun, hagree'⟩ :=
      Simulates.iterate htest (hbody.bind fun _ => hstep) w m a w' hagree h
    refine ⟨m', runAll_one ?_, hagree'⟩
    rw [run]
    exact hrun
  rw [exec]
  exact simulates_append hinit hloop

theorem declare_of_mem {x : String} (h : x ∈ σ.names) : σ.declare x = σ := by
  unfold Scope.declare Scope.declared
  rw [if_pos (List.contains_iff_mem.mpr h)]

theorem not_effect_of_isPassed (h : isPassed n = true) : ¬ Effect free callable n := by
  intro he
  cases he with
  | value hn => cases hn <;> cases h
  | assign => cases h

/-- A job that is done by another one means the same. -/
theorem leads_fragment {job' : Job} (hl : job.Leads job')
    (done : Emits env job' σ vs split code σ') (hjob : InFragment free callable job)
    (hdeclares : declares job ⊆ locals) :
    InFragment free callable job' ∧ declares job' ⊆ locals ∧
      meaning host job = meaning host job' := by
  cases hl with
  | expression hn =>
    refine ⟨?_, List.nil_subset _, exec_of_isExpression hn⟩
    cases hjob with
    | effect h => exact h
    | _ => cases hn
  | stat e =>
    refine ⟨?_, List.nil_subset _, by rw [meaning, exec, meaning]⟩
    cases hjob with
    | stat h => exact h
    | effect h => cases h.isExpression
  | var ds =>
    rw [declares, Node.vars] at hdeclares
    refine ⟨?_, hdeclares, by rw [meaning, exec, meaning]⟩
    cases hjob with
    | var h => exact h
    | effect h => cases h.isExpression
  | block ns =>
    rw [declares, Node.vars] at hdeclares
    refine ⟨?_, hdeclares, by rw [meaning, exec, meaning]⟩
    cases hjob with
    | block h => exact h
    | effect h => cases h.isExpression
  | splice ns =>
    rw [declares, Node.vars] at hdeclares
    refine ⟨?_, hdeclares, by rw [meaning, exec, meaning]⟩
    cases hjob with
    | splice h => exact h
    | effect h => cases h.isExpression
  | region n =>
    refine ⟨hjob ?_, hdeclares, rfl⟩
    rintro rfl
    exact not_emits_stmt_absent done
  | step n =>
    have heffect : Effect free callable n := by
      refine hjob ?_
      rintro rfl
      cases done with
      | effect value => exact not_emits_expr_absent value
      | leads hl => cases hl
      | void hv => cases hv
    exact ⟨heffect, List.nil_subset _, exec_of_isExpression heffect.isExpression⟩

/-- The program of a job of statements follows the job. -/
theorem emits_simulates (terms : Terms env naming locals temps free callable) (host : Host V)
    (h : Emits env job σ vs split code σ') :
    InFragment free callable job → declares job ⊆ locals → Fits naming locals σ →
      σ'.temps ≤ temps → Fits naming locals σ' ∧
        Simulates (Agree naming locals free) (meaning host job) (runAll host naming code) := by
  induction h with
  | effect value =>
    intro hjob _ hfit htemps
    exact effect_simulates terms hfit hjob value htemps
  | leads hl done ih =>
    intro hjob hdeclares hfit htemps
    obtain ⟨hjob', hdeclares', hmeaning⟩ := leads_fragment hl done hjob hdeclares
    rw [hmeaning]
    exact ih hjob' hdeclares' hfit htemps
  | void hv =>
    intro hjob _ hfit _
    refine ⟨hfit, ?_⟩
    cases hv with
    | test => exact hjob.elim
    | region | step =>
      rw [meaning, exec, runAll]
      exact .pure ()
  | branch cond yesDone noDone _ ih₁ ih₂ =>
    intro hjob hdeclares hfit htemps
    have htemps₁ := Nat.le_trans noDone.grows.temps htemps
    cases hjob with
    | ifElse hc hyes hno =>
      rw [declares, Node.vars, List.append_subset] at hdeclares
      obtain ⟨hfit₁, hstands⟩ :=
        terms.standsFor host hfit hc cond (Nat.le_trans yesDone.grows.temps htemps₁)
      obtain ⟨hfit₂, hsim₁⟩ := ih₁ hyes hdeclares.1 hfit₁ htemps₁
      obtain ⟨hfit₃, hsim₂⟩ := ih₂ hno hdeclares.2 hfit₂ htemps
      exact ⟨hfit₃, branch_simulates hstands hsim₁ hsim₂⟩
    | effect h => cases h.isExpression
  | loop initDone testDone stepDone bodyDone ih _ ih₂ ih₃ =>
    intro hjob hdeclares hfit htemps
    have htemps₂ := Nat.le_trans bodyDone.grows.temps htemps
    have htemps₁ := Nat.le_trans stepDone.grows.temps htemps₂
    cases hjob with
    | forLoop hinit hcond hstep hbody =>
      rw [declares, Node.vars, List.append_subset] at hdeclares
      obtain ⟨hfit₁, hsim⟩ :=
        ih hinit hdeclares.1 hfit (Nat.le_trans testDone.grows.temps htemps₁)
      obtain ⟨hfit₂, hsim₁⟩ := test_simulates terms hfit₁ hcond testDone htemps₁
      obtain ⟨hfit₃, hsim₂⟩ := ih₂ hstep (List.nil_subset _) hfit₂ htemps₂
      obtain ⟨hfit₄, hsim₃⟩ := ih₃ hbody hdeclares.2 hfit₃ htemps
      exact ⟨hfit₄, loop_simulates hsim hsim₁ hsim₂ hsim₃⟩
    | effect h => cases h.isExpression
  | declaration =>
    intro hjob
    cases hjob with
    | effect h => cases h.isExpression
  | passed hp =>
    intro hjob
    cases hjob with
    | effect h => exact absurd h (not_effect_of_isPassed hp)
    | _ => cases hp
  | stmtsNil =>
    intro _ _ hfit _
    refine ⟨hfit, ?_⟩
    rw [meaning, execAll, runAll]
    exact .pure ()
  | stmtsCons head tail ih ih' =>
    intro hjob hdeclares hfit htemps
    rw [declares, Node.varsAll, List.append_subset] at hdeclares
    obtain ⟨hfit₁, hsim⟩ := ih (hjob _ List.mem_cons_self) hdeclares.1 hfit
      (Nat.le_trans tail.grows.temps htemps)
    obtain ⟨hfit₂, hsim'⟩ :=
      ih' (fun n hn => hjob n (List.mem_cons_of_mem _ hn)) hdeclares.2 hfit₁ htemps
    refine ⟨hfit₂, ?_⟩
    rw [meaning, execAll]
    exact simulates_append hsim hsim'
  | bindingsNil =>
    intro _ _ hfit _
    refine ⟨hfit, ?_⟩
    rw [meaning, bindAll, runAll]
    exact .pure ()
  | bare =>
    intro hjob
    cases (hjob _ List.mem_cons_self).value_free
  | @bound σ σ₁ σ₂ x init v ds vs split split' code code' value rest _ ih' =>
    intro hjob hdeclares hfit htemps
    have hx : x ∈ locals := hdeclares List.mem_cons_self
    have hd := hjob (x, init) List.mem_cons_self
    -- the names of a unit are all declared before its walk, so this declares nothing
    have hvalue := value
    rw [declare_of_mem (hfit.names ▸ hx)] at hvalue
    obtain ⟨hfit₁, hsim⟩ := binding_simulates terms host hfit hx hd hvalue
      (Nat.le_trans rest.grows.temps htemps)
    obtain ⟨hfit₂, hsim'⟩ := ih' (fun d hd => hjob d (List.mem_cons_of_mem _ hd))
      (fun y hy => hdeclares (List.mem_cons_of_mem _ hy)) hfit₁ htemps
    have hne : init.isAbsent = false := by cases hd.value_free <;> rfl
    refine ⟨hfit₂, ?_⟩
    have happend := simulates_append hsim hsim'
    rw [bind_assoc] at happend
    rw [meaning, bindAll, hne, List.append_cons]
    exact happend
  | _ =>
    -- values are no statements
    intro hjob
    exact hjob.elim

end

end Resumable.Meaning
