/-
  Resumable.Proofs.Code.Serializing — code is made of a program without losing or adding anything.

  A renderer is asked for the text of each payload and of nothing else.  If it accepts them all, a
  program has a code, and the figures that the transform counted on its way can be counted again on
  the code: a walk over the one meets what a walk over the other meets.

  Main statement: `transform_serializes`.
-/
import Resumable.Proofs.Walk.Shapes

namespace Resumable.Program

/-! ## §1. Accepted programs. -/

/-- Whether a renderer has a text for every payload of a program, nested ones included. -/
def Accepts (render : Renderer) (program : List Instr) : Prop :=
  ∀ i ∈ Instr.walkAll program, ∀ n ∈ i.payloads, (render n).isOk = true

instance (render : Renderer) (program : List Instr) : Decidable (Accepts render program) :=
  inferInstanceAs
    (Decidable (∀ i ∈ Instr.walkAll program, ∀ n ∈ i.payloads, (render n).isOk = true))

/-- A program whose payloads are all there and accepted has a code. -/
theorem exists_toCode {render : Renderer} {program : List Instr}
    (present : Instr.Every Instr.WellShaped program) (accepts : Accepts render program) :
    ∃ code, toCode render program = .ok code := by
  cases hcode : toCode render program with
  | ok code => exact ⟨code, rfl⟩
  | error e =>
    -- only the renderer can refuse something, and it accepts whatever it is asked for
    obtain ⟨path, n, cause, ⟨⟨-, hok⟩, hrefused⟩, -⟩ := serializeAll_refused_of
      (P := fun n => n.isAbsent = false ∧ (render n).isOk = true) (fun _ hn => hn.1)
      (fun i hi n hn => ⟨(present i hi).payloads n hn, accepts i hi n hn⟩) hcode
    rw [hrefused] at hok
    cases hok

/-! ## §2. Whole units. -/

/-- A transformed unit whose payloads are accepted has a code.  A walk over the code meets the
    commands and marks that a walk over the program meets, in the same order.  The figures of the
    transform are those of the code and of the list of local names, the number of temps apart. -/
theorem transform_serializes (naming : Naming) (isAsync : String → Bool) (unit : Node)
    (t : Transformed) (render : Renderer) (h : (transform naming isAsync unit).1 = .ok t)
    (accepts : Accepts render t.program) :
    ∃ code, toCode render t.program = .ok code ∧
      code.all.map Op.label = (Instr.walkAll t.program).map Instr.label ∧
      code.count = t.stats.instructions ∧
      code.all.countP (fun o => o.command == "call") = t.stats.calls ∧
      code.all.countP (fun o => o.command == "call" && o.suspends) = t.stats.asyncCalls ∧
      t.locals.length = t.stats.locals ∧
      Compiler.statsOf code t.locals = { t.stats with temps := 0 } := by
  obtain ⟨body, σ, rfl, derived⟩ := transform_emits h
  obtain ⟨vs, split, emits⟩ := derived.emits
  obtain ⟨code, hcode⟩ := exists_toCode emits.wellShaped accepts
  have figures : Compiler.statsOf code t.locals = { t.stats with temps := 0 } := by
    rw [statsOf_toCode t.locals hcode, derived.stats, derived.locals]
  have calls : code.all.countP (fun o => o.command == "call") = t.stats.calls := by
    rw [derived.stats]
    exact countP_labels hcode (fun l => l.1 == "call")
  have asyncCalls : code.all.countP (fun o => o.command == "call" && o.suspends) =
      t.stats.asyncCalls := by
    rw [derived.stats]
    exact countP_labels hcode (fun l => l.1 == "call" && l.2)
  refine ⟨code, hcode, toCode_labels hcode, ?_, calls, asyncCalls, ?_, figures⟩
  · exact congrArg Stats.instructions figures
  · exact congrArg Stats.locals figures

/-- A declared name, a branch with a call that may suspend in one side, and a loop with a call in
    its condition: `var x; if (x) asyncRead(x); else y = 1;` and `for (; h(x); ) z = x;`. -/
theorem transform_serializes_branch_and_loop :
    let unit : Node := .toplevel [.var [("x", .absent)],
      .ifElse (.name "x") (.stat (.call (.name "asyncRead") [.name "x"]))
        (.stat (.assign "" (.name "y") (.num "1"))),
      .forLoop .absent (.call (.name "h") [.name "x"]) .absent
        (.stat (.assign "" (.name "z") (.name "x")))]
    let render : Renderer := fun n => .ok n.tag
    ∃ t, (transform {} (· == "asyncRead") unit).1 = .ok t ∧ Accepts render t.program ∧
      t.stats.calls = 2 ∧ t.stats.asyncCalls = 1 ∧
      ∃ code, toCode render t.program = .ok code ∧
        code.all.map Op.label = (Instr.walkAll t.program).map Instr.label ∧
        code.count = t.stats.instructions ∧
        code.all.countP (fun o => o.command == "call") = t.stats.calls ∧
        code.all.countP (fun o => o.command == "call" && o.suspends) = t.stats.asyncCalls ∧
        t.locals.length = t.stats.locals ∧
        Compiler.statsOf code t.locals = { t.stats with temps := 0 } := by
  intro unit render
  obtain ⟨t, ht, hfigures⟩ := exists_of_okAnd
    (r := (transform {} (· == "asyncRead") unit).1)
    (fun t => decide (Accepts render t.program) && t.stats.calls == 2 && t.stats.asyncCalls == 1)
    (by decide +kernel)
  simp only [Bool.and_eq_true, decide_eq_true_eq, beq_iff_eq] at hfigures
  obtain ⟨⟨accepts, calls⟩, asyncCalls⟩ := hfigures
  exact ⟨t, ht, accepts, calls, asyncCalls,
    transform_serializes {} (· == "asyncRead") unit t render ht accepts⟩

end Resumable.Program
