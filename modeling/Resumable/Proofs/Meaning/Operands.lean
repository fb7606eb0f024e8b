/-
  Resumable.Proofs.Meaning.Operands — expressions through their operands.

  An expression that evaluates all its operands is their values, combined (`eval_strict`).  That is
  how a walk sees expressions as well: it takes the operands apart and puts an expression together
  from what stands for their values, which has the same meaning (`Strict.assemble`) as long as no
  place is spelled by accident (`Plain`).
-/
import Resumable.Proofs.Meaning.Evaluation
import Resumable.Proofs.Meaning.Fragment
import Resumable.Proofs.Walk.Dotted

namespace Resumable.Meaning

open Program (Naming Scope)
open Program.Walk

/-! ## §1. Actions. -/

section

variable {V α β : Type} {w w' : World V}

theorem bind_some {x : Action V α} {f : α → Action V β} {b : β} :
    (x >>= f) w = some (b, w') ↔ ∃ a w₁, x w = some (a, w₁) ∧ f a w₁ = some (b, w') := by
  show (x w >>= fun p => f p.1 p.2) = some (b, w') ↔ _
  rcases x w with _ | ⟨a, w₁⟩
  · simp
  · constructor
    · intro h
      exact ⟨a, w₁, rfl, h⟩
    · rintro ⟨a', w₂, h, h'⟩
      cases h
      exact h'

theorem pure_some {a b : α} : (pure a : Action V α) w = some (b, w') ↔ a = b ∧ w = w' := by
  show some (a, w) = some (b, w') ↔ _
  simp

theorem map_some {x : Action V α} {f : α → β} {b : β} :
    (f <$> x) w = some (b, w') ↔ ∃ a, x w = some (a, w') ∧ f a = b := by
  rw [map_eq_pure_bind, bind_some]
  constructor
  · rintro ⟨a, w₁, hx, h⟩
    obtain ⟨rfl, rfl⟩ := pure_some.mp h
    exact ⟨a, hx, rfl⟩
  · rintro ⟨a, hx, rfl⟩
    exact ⟨a, w', hx, rfl⟩

theorem lift_some {o : Option α} {a : α} :
    (liftM o : Action V α) w = some (a, w') ↔ o = some a ∧ w = w' := by
  show (o >>= fun b => some (b, w)) = some (a, w') ↔ _
  cases o <;> simp

theorem read_some {p : List String} {v : V} :
    read p w = some (v, w') ↔ w.cells p = some v ∧ w = w' := by
  unfold read
  cases w.cells p <;> simp

theorem World.set_self (w : World V) (p : List String) (v : V) :
    (w.set p v).cells p = some v := if_pos rfl

theorem World.set_of_not_prefix (w : World V) {p q : List String} (v : V) (h : ¬ p <+: q) :
    (w.set p v).cells q = w.cells q := by
  have hne : q ≠ p := by
    rintro rfl
    exact h (List.prefix_refl q)
  exact (if_neg hne).trans (if_neg h)

end

/-! ## §2. Places. -/

section

variable {naming : Naming} {n v : Node} {f : String} {p : List String}

theorem path?_cons (h : path? n = some p) : ∃ x q, p = x :: q := by
  cases n with
  | name x =>
    cases h
    exact ⟨x, [], rfl⟩
  | dot b f =>
    obtain ⟨q, -, rfl⟩ := Option.map_eq_some_iff.mp h
    cases q with
    | nil => exact ⟨f, [], rfl⟩
    | cons x q => exact ⟨x, q ++ [f], rfl⟩
  | _ => cases h

/-- The expression that captures read spells the slot. -/
theorem path?_dotted (naming : Naming) :
    path? (Naming.dotted naming.returnValue) = some (slot naming) := by
  refine Naming.dotted_of (P := fun xs n => path? n = some xs) _ (fun _ => rfl) ?_
  intro x xs n f h
  rw [path?, h, Option.map_some]

/-- A member access is no place of the source. -/
theorem place?_source_dot (b : Node) (f : String) : place? sourcePlace (.dot b f) = none := by
  unfold place? path?
  cases hb : path? b with
  | none => rfl
  | some q =>
    obtain ⟨x, r, rfl⟩ := path?_cons hb
    simp [sourcePlace, Option.filter]

/-- What stands for a value spells neither the container nor the slot or a place around it. -/
def Plain (naming : Naming) (v : Node) : Prop :=
  ∀ p, path? v = some p → p ≠ [naming.container] ∧ ¬ p <+: slot naming

theorem Plain.of_none (h : path? v = none) : Plain naming v := by
  intro p hp
  rw [h] at hp
  cases hp

theorem Plain.dot (h : Plain naming v) (f : String) : Plain naming (.dot v f) := by
  intro p hp
  obtain ⟨q, hq, rfl⟩ := Option.map_eq_some_iff.mp hp
  obtain ⟨x, r, rfl⟩ := path?_cons hq
  exact ⟨by simp, fun hslot => (h _ hq).2 ((List.prefix_append _ [f]).trans hslot)⟩

/-- A member access whose base stands for a value is no place of a program. -/
theorem Plain.place?_dot (h : Plain naming v) (f : String) :
    place? (programPlace naming) (.dot v f) = none := by
  unfold place? path?
  cases hv : path? v with
  | none => rfl
  | some q =>
    obtain ⟨x, r, rfl⟩ := path?_cons hv
    obtain ⟨hcontainer, hroot⟩ := h _ hv
    have hslot : x :: (r ++ [f]) ≠ slot naming := by
      intro heq
      rw [← heq] at hroot
      exact hroot (List.prefix_append (x :: r) [f])
    have hfield : r = [] → x ≠ naming.container := by
      rintro rfl rfl
      exact hcontainer rfl
    simpa [programPlace, Option.filter, hslot] using hfield

end

/-! ## §3. Expressions through their operands. -/

/-- An expression whose value is made from the values of all its operands. -/
inductive Strict : Node → Prop
  | array (es : List Node) : Strict (.array es)
  | dot (b : Node) (f : String) : Strict (.dot b f)
  | sub (b i : Node) : Strict (.sub b i)
  | binary {op : String} (h : shortCircuits op = false) (l r : Node) : Strict (.binary op l r)
  | unary {op : String} (h : mutates op = false) (e : Node) : Strict (.unary .before op e)

/-- The value of an expression, from the values of its operands. -/
def combine {V : Type} (host : Host V) : Node → List V → Option V
  | .array _ => fun vs => some (host.array vs)
  | .dot _ f => fun
    | [v] => host.member v f
    | _ => none
  | .sub _ _ => fun
    | [v, k] => host.element v k
    | _ => none
  | .binary op _ _ => fun
    | [a, b] => host.binary op a b
    | _ => none
  | .unary _ op _ => fun
    | [v] => host.unary op v
    | _ => none
  | _ => fun _ => none

section

variable {V : Type} {host : Host V} {isPlace : List String → Bool} {free callable : String → Prop}
  {n : Node} {ns vs : List Node} {w w' : World V}

theorem Value.strict (h : Value free callable n) (hf : form n = .combined) : Strict n := by
  cases h with
  | array => exact .array _
  | dot => exact .dot _ _
  | sub => exact .sub _ _
  | binary hop => exact .binary hop _ _
  | unary hop => exact .unary hop _
  | _ => cases hf

theorem Value.parts (h : Value free callable n) (hf : form n = .combined) :
    ∀ m ∈ parts n, Value free callable m := by
  cases h with
  | array h => exact h
  | dot f h =>
    intro m hm
    obtain rfl := List.mem_singleton.mp hm
    exact h
  | sub hl hr | binary _ hl hr =>
    intro m hm
    simp only [Program.Walk.parts, List.mem_cons, List.not_mem_nil, or_false] at hm
    rcases hm with rfl | rfl
    · exact hl
    · exact hr
  | unary hop h =>
    intro m hm
    simp only [Program.Walk.parts, operandParts, hop, Bool.false_and, Bool.false_eq_true, if_false,
      List.mem_singleton] at hm
    rw [hm]
    exact h
  | _ => cases hf

theorem evalAll_nil {as : List V} :
    evalAll host isPlace [] w = some (as, w') ↔ as = [] ∧ w = w' := by
  rw [evalAll, pure_some, eq_comm]

theorem evalAll_cons {m : Node} {as : List V} :
    evalAll host isPlace (m :: ns) w = some (as, w') ↔
      ∃ a w₁ bs, eval host isPlace m w = some (a, w₁) ∧
        evalAll host isPlace ns w₁ = some (bs, w') ∧ as = a :: bs := by
  rw [evalAll, bind_some]
  refine exists_congr fun a => exists_congr fun w₁ => ?_
  simp only [bind_some, pure_some]
  constructor
  · rintro ⟨h, bs, w₂, hbs, rfl, rfl⟩
    exact ⟨bs, h, hbs, rfl⟩
  · rintro ⟨bs, h, hbs, rfl⟩
    exact ⟨h, bs, w', hbs, rfl, rfl⟩

theorem evalAll_one {m : Node} {as : List V} :
    evalAll host isPlace [m] w = some (as, w') ↔
      ∃ a, eval host isPlace m w = some (a, w') ∧ as = [a] := by
  rw [evalAll_cons]
  constructor
  · rintro ⟨a, w₁, bs, h, hbs, rfl⟩
    obtain ⟨rfl, rfl⟩ := evalAll_nil.mp hbs
    exact ⟨a, h, rfl⟩
  · rintro ⟨a, h, rfl⟩
    exact ⟨a, w', [], h, evalAll_nil.mpr ⟨rfl, rfl⟩, rfl⟩

theorem evalAll_two {l r : Node} {as : List V} :
    evalAll host isPlace [l, r] w = some (as, w') ↔
      ∃ a w₁ b, eval host isPlace l w = some (a, w₁) ∧ eval host isPlace r w₁ = some (b, w') ∧
        as = [a, b] := by
  rw [evalAll_cons]
  constructor
  · rintro ⟨a, w₁, bs, h, hbs, rfl⟩
    obtain ⟨b, hb, rfl⟩ := evalAll_one.mp hbs
    exact ⟨a, w₁, b, h, hb, rfl⟩
  · rintro ⟨a, w₁, b, h, hb, rfl⟩
    exact ⟨a, w₁, [b], h, evalAll_one.mpr ⟨b, hb, rfl⟩, rfl⟩

theorem bind_one {m : Node} {f : V → Option V} {a : V} :
    (do let v ← eval host isPlace m; f v : Action V V) w = some (a, w') ↔
      ∃ as, evalAll host isPlace [m] w = some (as, w') ∧
        (match as with | [v] => f v | _ => none) = some a := by
  simp only [bind_some, lift_some, evalAll_one]
  constructor
  · rintro ⟨v, w₁, hv, ha, rfl⟩
    exact ⟨[v], ⟨v, hv, rfl⟩, ha⟩
  · rintro ⟨_, ⟨v, hv, rfl⟩, ha⟩
    exact ⟨v, w', hv, ha, rfl⟩

theorem bind_two {l r : Node} {f : V → V → Option V} {a : V} :
    (do let u ← eval host isPlace l; let v ← eval host isPlace r; f u v : Action V V) w =
        some (a, w') ↔
      ∃ as, evalAll host isPlace [l, r] w = some (as, w') ∧
        (match as with | [u, v] => f u v | _ => none) = some a := by
  simp only [bind_some, lift_some, evalAll_two]
  constructor
  · rintro ⟨u, w₁, hu, v, w₂, hv, ha, rfl⟩
    exact ⟨[u, v], ⟨u, w₁, v, hu, hv, rfl⟩, ha⟩
  · rintro ⟨_, ⟨u, w₁, v, hu, hv, rfl⟩, ha⟩
    exact ⟨u, w₁, hu, v, w', hv, ha, rfl⟩

/-- The operands are evaluated from left to right, and then their values are combined. -/
theorem eval_strict (h : Strict n) (hp : place? isPlace n = none) {a : V} :
    eval host isPlace n w = some (a, w') ↔
      ∃ as, evalAll host isPlace (parts n) w = some (as, w') ∧ combine host n as = some a := by
  cases h with
  | array es => simp only [eval, map_some, parts, combine, Option.some.injEq]
  | dot b f =>
    rw [eval, hp]
    exact bind_one
  | sub b i =>
    rw [eval]
    exact bind_two
  | binary hop l r =>
    rw [eval, hop, if_neg Bool.false_ne_true]
    exact bind_two
  | unary hop e =>
    rw [eval, parts, operandParts, hop, Bool.false_and, if_neg Bool.false_ne_true,
      if_neg Bool.false_ne_true]
    exact bind_one

/-- The callee and the arguments are evaluated from left to right, and then the call is made. -/
theorem eval_call {c : Node} {args : List Node} {a : V} :
    eval host isPlace (.call c args) w = some (a, w') ↔
      ∃ callee bs w₁, evalAll host isPlace (c :: args) w = some (callee :: bs, w₁) ∧
        invoke host callee bs w₁ = some (a, w') := by
  simp only [eval, bind_some, evalAll_cons, List.cons.injEq]
  constructor
  · rintro ⟨callee, w₁, hc, bs, w₂, hbs, ha⟩
    exact ⟨callee, bs, w₂, ⟨callee, w₁, bs, hc, hbs, rfl, rfl⟩, ha⟩
  · rintro ⟨_, _, w₂, ⟨callee, w₁, bs, hc, hbs, rfl, rfl⟩, ha⟩
    exact ⟨_, w₁, hc, _, w₂, hbs, ha⟩

theorem invoke_some {callee a : V} {args : List V} :
    invoke host callee args w = some (a, w') ↔
      host.answer w.history ⟨callee, args⟩ = some a ∧
        w' = { w with history := w.history ++ [⟨callee, args⟩] } := by
  unfold invoke
  cases host.answer w.history ⟨callee, args⟩ <;> simp [eq_comm]

/-- An expression put together from other operands. -/
theorem Strict.assemble (h : Strict n) (host : Host V) (σ : Scope)
    (hlen : vs.length = (parts n).length) :
    Strict (assemble σ n vs) ∧ parts (assemble σ n vs) = vs ∧
      combine host (Program.Walk.assemble σ n vs) = combine host n := by
  cases h with
  | array es => exact ⟨.array _, rfl, rfl⟩
  | dot b f =>
    obtain ⟨v, rfl⟩ := List.length_eq_one_iff.mp hlen
    exact ⟨.dot _ _, rfl, rfl⟩
  | sub b i =>
    match vs with
    | [v, k] => exact ⟨.sub _ _, rfl, rfl⟩
  | binary hop l r =>
    match vs with
    | [v, k] => exact ⟨.binary hop _ _, rfl, rfl⟩
  | unary hop e =>
    simp only [Program.Walk.parts, Program.Walk.assemble, operandParts, operandFrom, hop,
      Bool.false_and, Bool.false_eq_true, if_false] at hlen ⊢
    obtain ⟨v, rfl⟩ := List.length_eq_one_iff.mp hlen
    exact ⟨.unary hop _, rfl, rfl⟩

theorem Strict.place?_source (h : Strict n) : place? sourcePlace n = none := by
  cases h with
  | dot b f => exact place?_source_dot b f
  | _ => rfl

/-- No place of a program is spelled by accident. -/
theorem Strict.place?_assemble {naming : Naming} (h : Strict n) (σ : Scope)
    (hlen : vs.length = (parts n).length) (hplain : ∀ v ∈ vs, Plain naming v) :
    place? (programPlace naming) (Program.Walk.assemble σ n vs) = none ∧
      Plain naming (Program.Walk.assemble σ n vs) := by
  cases h with
  | dot b f =>
    obtain ⟨v, rfl⟩ := List.length_eq_one_iff.mp hlen
    have hv := hplain v List.mem_cons_self
    exact ⟨hv.place?_dot f, hv.dot f⟩
  | array es => exact ⟨rfl, .of_none rfl⟩
  | sub b i | binary hop l r =>
    match vs with
    | [v, k] => exact ⟨rfl, .of_none rfl⟩
  | unary hop e => exact ⟨rfl, .of_none rfl⟩

end

end Resumable.Meaning
