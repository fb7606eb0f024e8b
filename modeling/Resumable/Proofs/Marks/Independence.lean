/-
  Resumable.Proofs.Marks.Independence — what a convention has a say in.

  A convention tells which names may suspend.  It decides which calls of a program are marked, and
  how many are counted as marked; nothing else that a unit is transformed or compiled to depends
  on it, not even whether it is, or with which failure it is not.  A convention that matches more
  names marks more calls.

  Main statement: `compile_convention_independent`.
-/
import Resumable.Convention
import Resumable.Proofs.Marks.Lockstep

namespace Resumable.Program

/-! ## §1. Results up to marks. -/

/-- The same failure, or values of which one is like the other. -/
inductive Compared {α β : Type} (r : α → β → Prop) : Except Failure α → Except Failure β → Prop
  | value {a : α} {b : β} (h : r a b) : Compared r (.ok a) (.ok b)
  | failure (e : Failure) : Compared r (.error e) (.error e)

/-- Transformed units that are the same up to marks, with the marks related place by place. -/
structure Transformed.Alike (R : Bool → Bool → Prop) (t u : Transformed) : Prop where
  tree : t.tree = u.tree
  program : Instr.unmarkedAll t.program = Instr.unmarkedAll u.program
  marks : List.Forall₂ R (Instr.marks t.program) (Instr.marks u.program)
  locals : t.locals = u.locals
  stats : { t.stats with asyncCalls := 0 } = { u.stats with asyncCalls := 0 }

/-- Compiled units that are the same up to marks, with the marks related place by place. -/
structure Output.Alike (R : Bool → Bool → Prop) (p q : Output) : Prop where
  source : p.source = q.source
  code : Op.unmarkedAll p.code = Op.unmarkedAll q.code
  marks : List.Forall₂ R (p.code.all.map Op.suspends) (q.code.all.map Op.suspends)
  locals : p.locals = q.locals
  stats : { p.stats with asyncCalls := 0 } = { q.stats with asyncCalls := 0 }

/-! ## §2. Transforming. -/

section

variable {R : Bool → Bool → Prop} {naming : Naming} {isAsync other : String → Bool}

/-- Walks that end in states alike amount to transformed units alike. -/
theorem State.Alike.finish {s t : State} (h : State.Alike R s t) :
    Compared (Transformed.Alike R) s.finish t.finish := by
  unfold State.finish
  rw [h.frames.balanced_eq, h.frames.depth_eq]
  by_cases hb : t.frames.balanced = true
  · rw [if_pos hb, if_pos hb]
    have hs : s.frames.balanced = true := h.frames.balanced_eq.trans hb
    have program : AllAlike R s.frames.root.1 t.frames.root.1 := h.frames.root hs
    refine .value ⟨?_, program.same, program.marked, ?_, ?_⟩
    · exact congrArg (fun ns => Node.toplevel (Node.flatten ns)) program.rebuildAll_eq
    · exact congrArg Scope.names h.scope
    · simp only [h.scope, h.calls, program.count_eq]
  · rw [if_neg hb, if_neg hb]
    exact .failure _

theorem walkUnit_outcome (h : Surface.Alike R (naming.surface isAsync) (naming.surface other))
    (body : List Node) :
    Walk.Outcome R Eq (walkUnit naming isAsync body) (walkUnit naming other body) := by
  refine (Walk.stmts_agree h body).inside "toplevel" _ _ ?_
  exact ⟨rfl, ⟨⟨.nil, .nil⟩, .nil⟩, rfl, rfl⟩

/-- Two conventions transform a unit to the same up to marks, or both not. -/
theorem transform_alike (h : Surface.Alike R (naming.surface isAsync) (naming.surface other))
    (unit : Node) :
    Compared (Transformed.Alike R) (transform naming isAsync unit).1
      (transform naming other unit).1 := by
  cases unit with
  | toplevel body =>
    have walked := walkUnit_outcome h body
    unfold transform transformBody
    dsimp only
    generalize walkUnit naming isAsync body = out, walkUnit naming other body = out' at walked ⊢
    cases walked with
    | failure e s t => exact .failure e
    | @value a b s t hab alike =>
      have finished := alike.finish
      dsimp only
      generalize s.finish = r, t.finish = r' at finished ⊢
      cases finished with
      | value htu => exact .value htu
      | failure e => exact .failure e
  | _ => exact .failure _

/-! ## §3. Compiling. -/

/-- The marks of code are those of the program it was made from. -/
theorem toCode_marks {render : Renderer} {program : List Instr} {code : Code}
    (h : toCode render program = .ok code) : code.all.map Op.suspends = Instr.marks program := by
  have labels := congrArg (List.map Prod.snd) (toCode_labels h)
  rw [List.map_map, List.map_map] at labels
  exact labels

/-- The code of programs that are the same up to marks. -/
theorem Transformed.Alike.toCode {t u : Transformed} (h : t.Alike R u) (render : Renderer) :
    Compared (fun c d : Code => Op.unmarkedAll c = Op.unmarkedAll d ∧
        List.Forall₂ R (c.all.map Op.suspends) (d.all.map Op.suspends))
      (toCode render t.program) (toCode render u.program) := by
  have same : (Program.toCode render t.program).map Op.unmarkedAll =
      (Program.toCode render u.program).map Op.unmarkedAll := by
    unfold Program.toCode
    rw [← serializeAll_unmarked, h.program, serializeAll_unmarked]
  cases hc : Program.toCode render t.program with
  | error e =>
    cases hd : Program.toCode render u.program with
    | error e' =>
      rw [hc, hd] at same
      cases same
      exact .failure e
    | ok d =>
      rw [hc, hd] at same
      cases same
  | ok c =>
    cases hd : Program.toCode render u.program with
    | error e' =>
      rw [hc, hd] at same
      cases same
    | ok d =>
      rw [hc, hd] at same
      refine .value ⟨Except.ok.inj same, ?_⟩
      rw [toCode_marks hc, toCode_marks hd]
      exact h.marks

/-- The output of transformed units that are the same up to marks. -/
theorem Transformed.Alike.output {t u : Transformed} (h : t.Alike R u) (o : Options) :
    Compared (Output.Alike R) (t.output o) (u.output { o with isAsync := other }) := by
  have coded := h.toCode o.payload
  unfold Transformed.output
  dsimp only
  rw [h.tree]
  generalize Program.toCode o.payload t.program = r,
    Program.toCode o.payload u.program = r' at coded ⊢
  cases coded with
  | failure e => exact .failure e
  | value hcode =>
    cases o.source u.tree with
    | error e => exact .failure e
    | ok source => exact .value ⟨rfl, hcode.1, hcode.2, h.locals, h.stats⟩

/-- What a compilation comes to, its log apart. -/
theorem compile_fst (o : Options) (unit : Node) :
    (compile o unit).1 = (transform o.naming o.isAsync unit).1 >>= (·.output o) := by
  unfold compile
  dsimp only
  split
  · next hfail => rw [hfail]
  · next hout => rw [hout]

/-- Two conventions compile a unit to the same up to marks, or both not. -/
theorem compile_alike {o : Options}
    (h : Surface.Alike R (o.naming.surface o.isAsync) (o.naming.surface other)) (unit : Node) :
    Compared (Output.Alike R) (compile o unit).1 (compile { o with isAsync := other } unit).1 := by
  have transformed := transform_alike h unit
  rw [compile_fst, compile_fst]
  dsimp only
  generalize (transform o.naming o.isAsync unit).1 = r,
    (transform o.naming other unit).1 = r' at transformed ⊢
  cases transformed with
  | value htu => exact htu.output o
  | failure e => exact .failure e

end

/-! ## §4. Conventions. -/

/-- More names that may suspend are mentioned, the more names may suspend. -/
theorem Walk.mentions_mono {isAsync other : String → Bool}
    (h : ∀ x, isAsync x = true → other x = true) {n : Node} (hn : mentions isAsync n = true) :
    mentions other n = true := by
  unfold mentions at hn ⊢
  obtain ⟨m, hm, hp⟩ := List.any_eq_true.mp hn
  refine List.any_eq_true.mpr ⟨m, hm, ?_⟩
  cases m with
  | name x => exact h x hp
  | dot b f => exact h f hp
  | _ => cases hp

theorem Walk.marked_mono {env env' : Surface}
    (h : ∀ x, env.isAsync x = true → env'.isAsync x = true) (c : Node) (args : List Node)
    (hm : marked env c args = true) : marked env' c args = true := by
  unfold marked at hm ⊢
  rcases (Bool.or_eq_true _ _).mp hm with hc | hargs
  · rw [mentions_mono h hc]
    rfl
  · obtain ⟨a, ha, hn⟩ := List.any_eq_true.mp hargs
    rw [List.any_eq_true.mpr ⟨a, ha, mentions_mono h hn⟩, Bool.or_true]

/-- Marks of two conventions, whatever they are. -/
def Whichever (_ _ : Bool) : Prop := True

/-- A call that one convention marks is marked by the other. -/
def Implied (a b : Bool) : Prop := a = true → b = true

/-- Under any two conventions a unit is transformed and compiled to the same up to the marks of
    calls and their number, or fails alike; if the second one matches all names that the first one
    matches, every call that is marked under the first is marked under the second. -/
theorem compile_convention_independent (o : Options) (other : String → Bool) (unit : Node) :
    (Compared (Transformed.Alike Whichever) (transform o.naming o.isAsync unit).1
        (transform o.naming other unit).1 ∧
      Compared (Output.Alike Whichever) (compile o unit).1
        (compile { o with isAsync := other } unit).1) ∧
    ((∀ x, o.isAsync x = true → other x = true) →
      Compared (Transformed.Alike Implied) (transform o.naming o.isAsync unit).1
        (transform o.naming other unit).1 ∧
      Compared (Output.Alike Implied) (compile o unit).1
        (compile { o with isAsync := other } unit).1) := by
  refine ⟨?_, fun hmore => ?_⟩
  · have surfaces : Surface.Alike Whichever (o.naming.surface o.isAsync)
        (o.naming.surface other) :=
      ⟨fun _ => trivial, rfl, fun _ _ => trivial⟩
    exact ⟨transform_alike surfaces unit, compile_alike surfaces unit⟩
  · have surfaces : Surface.Alike Implied (o.naming.surface o.isAsync)
        (o.naming.surface other) :=
      ⟨fun _ => id, rfl, fun c args => Walk.marked_mono hmore c args⟩
    exact ⟨transform_alike surfaces unit, compile_alike surfaces unit⟩

/-- A primitive and a marker, `f(asyncRead(), $$success)`: names that start with `async` mark one
    call, the usual names mark both. -/
theorem compile_convention_independent_of_marker :
    let unit : Node := .toplevel
      [.stat (.call (.name "f") [.call (.name "asyncRead") [], .name "$$success"])]
    let o : Options := { isAsync := (Convention.startsWith [Convention.usualStart]).isAsync }
    let usual : Options := { o with isAsync := Convention.usual.isAsync }
    (∀ x, o.isAsync x = true → usual.isAsync x = true) ∧
    Compared (Transformed.Alike Implied) (transform {} o.isAsync unit).1
      (transform {} usual.isAsync unit).1 ∧
    Compared (Output.Alike Implied) (compile o unit).1 (compile usual unit).1 ∧
    okAnd (transform {} o.isAsync unit).1 (fun t => t.stats.asyncCalls == 1) = true ∧
    okAnd (transform {} usual.isAsync unit).1 (fun t => t.stats.asyncCalls == 2) = true := by
  intro unit o usual
  have hmore : ∀ x, o.isAsync x = true → Convention.usual.isAsync x = true := by
    intro x hx
    show ((Convention.startsWith [Convention.usualStart]).isAsync x || _) = true
    rw [show (Convention.startsWith [Convention.usualStart]).isAsync x = true from hx]
    rfl
  have compared := (compile_convention_independent o Convention.usual.isAsync unit).2 hmore
  exact ⟨hmore, compared.1, compared.2, by decide +kernel, by decide +kernel⟩

end Resumable.Program
