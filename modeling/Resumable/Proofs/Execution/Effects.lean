/-
  Resumable.Proofs.Execution.Effects — what statements and instructions do to a state.

  The state is abstract.  An interpretation gives every piece of code an action and every condition
  a value; all else follows from the structure.  A statement may end normally, leave the loop around
  it, go on with the step of that loop, or leave the whole run, and its effect says from which state
  it can end in which way.  So an effect without any end is a run that does not come to one.

  `means` reads the effect off a tree, `runs` off instructions.  Main statements: the two ways of
  writing a loop that a tree knows.  A test may be moved into the body behind a negated break
  (`loop_guarded`), and a step may be moved to the end of a body that never continues
  (`loop_absorbs`).
-/
import Resumable.Proofs.Meaning.Evaluation

namespace Resumable.Execution

open Program (Instr)
open Meaning (test?)

/-! ## §1. Effects. -/

/-- How a statement ends. -/
inductive Ending where
  | normal
  /-- It leaves the loop around it. -/
  | broke
  /-- It goes on with the step of the loop around it. -/
  | continued
  /-- It leaves the run, as a return or a throw does. -/
  | left
  deriving DecidableEq, Repr

namespace Ending

/-- Whether a loop whose body ends so goes on with its step. -/
def goesOn : Ending → Bool
  | normal | continued => true
  | broke | left => false

/-- How a loop ends that its body ends. -/
def outside : Ending → Ending
  | broke => normal
  | e => e

end Ending

/-- From which state a statement can end, how, and in which state. -/
abbrev Effect (σ : Type) := σ → Ending → σ → Prop

/-- A value with an effect. -/
abbrev Valuation (σ : Type) := σ → Bool → σ → Prop

/-- How the test of a loop comes out: with a value, or not at all because it leaves the run. -/
abbrev Test (σ : Type) := σ → Option Bool → σ → Prop

section

variable {σ : Type}

namespace Effect

/-- Ends at once. -/
def jump (e : Ending) : Effect σ := fun s e' s' => e' = e ∧ s' = s

/-- Does nothing. -/
def skip : Effect σ := jump .normal

/-- One effect after the other, unless the first one ends otherwise than normally. -/
def andThen (a b : Effect σ) : Effect σ := fun s e s' =>
  (∃ m, a s .normal m ∧ b m e s') ∨ (e ≠ .normal ∧ a s e s')

/-- One of two effects, by a value. -/
def choose (c : Valuation σ) (yes no : Effect σ) : Effect σ := fun s e s' =>
  ∃ v m, c s v m ∧ (if v then yes else no) m e s'

/-- An effect that ends normally. -/
def always (a : σ → σ → Prop) : Effect σ := fun s e s' => e = .normal ∧ a s s'

/-- Whether an effect never jumps within the loop around it. -/
def Straight (a : Effect σ) : Prop := ∀ s e s', a s e s' → e = .normal ∨ e = .left

/-- Test, body, step, and again. -/
inductive Loop (test : Test σ) (body step : Effect σ) : Effect σ
  | done {s s' : σ} (t : test s (some false) s') : Loop test body step s .normal s'
  | testLeft {s s' : σ} (t : test s none s') : Loop test body step s .left s'
  | stopped {s m s' : σ} {e : Ending} (t : test s (some true) m) (b : body m e s')
      (stops : e.goesOn = false) : Loop test body step s e.outside s'
  | stepLeft {s m m' s' : σ} {e : Ending} (t : test s (some true) m) (b : body m e m')
      (on : e.goesOn = true) (st : step m' .left s') : Loop test body step s .left s'
  | again {s m m' m'' s' : σ} {e e' : Ending} (t : test s (some true) m) (b : body m e m')
      (on : e.goesOn = true) (st : step m' .normal m'')
      (rest : Loop test body step m'' e' s') : Loop test body step s e' s'

end Effect

namespace Test

/-- A test that holds. -/
def holding : Test σ := fun s v s' => v = some true ∧ s' = s

/-- A test by a value. -/
def judged (c : Valuation σ) : Test σ := fun s v s' => ∃ b, v = some b ∧ c s b s'

/-- A test behind an effect. -/
def after (a : Effect σ) (t : Test σ) : Test σ := fun s v s' =>
  (∃ m, a s .normal m ∧ t m v s') ∨ (v = none ∧ a s .left s')

/-- A test as a statement that breaks if it fails. -/
def guard (t : Test σ) : Effect σ := fun s e s' =>
  (e = .normal ∧ t s (some true) s') ∨ (e = .broke ∧ t s (some false) s') ∨
    (e = .left ∧ t s none s')

end Test

/-! ## §2. Laws. -/

namespace Effect

theorem straight_skip : Straight (skip : Effect σ) := by
  rintro s e s' ⟨rfl, -⟩
  exact .inl rfl

theorem skip_andThen (a : Effect σ) : skip.andThen a = a := by
  funext s e s'
  refine propext ⟨?_, ?_⟩
  · rintro (⟨m, ⟨-, rfl⟩, ha⟩ | ⟨hne, rfl, -⟩)
    · exact ha
    · exact absurd rfl hne
  · intro ha
    exact .inl ⟨s, ⟨rfl, rfl⟩, ha⟩

theorem andThen_skip (a : Effect σ) : a.andThen skip = a := by
  funext s e s'
  refine propext ⟨?_, ?_⟩
  · rintro (⟨m, ha, rfl, rfl⟩ | ⟨-, ha⟩)
    · exact ha
    · exact ha
  · intro ha
    by_cases he : e = .normal
    · subst he
      exact .inl ⟨s', ha, rfl, rfl⟩
    · exact .inr ⟨he, ha⟩

theorem andThen_assoc (a b c : Effect σ) :
    (a.andThen b).andThen c = a.andThen (b.andThen c) := by
  funext s e s'
  refine propext ⟨?_, ?_⟩
  · rintro (⟨m, ⟨m', ha, hb⟩ | ⟨hne, -⟩, hc⟩ | ⟨hne, ⟨m', ha, hb⟩ | ⟨-, ha⟩⟩)
    · exact .inl ⟨m', ha, .inl ⟨m, hb, hc⟩⟩
    · exact absurd rfl hne
    · exact .inl ⟨m', ha, .inr ⟨hne, hb⟩⟩
    · exact .inr ⟨hne, ha⟩
  · rintro (⟨m, ha, ⟨m', hb, hc⟩ | ⟨hne, hb⟩⟩ | ⟨hne, ha⟩)
    · exact .inl ⟨m', .inl ⟨m, ha, hb⟩, hc⟩
    · exact .inr ⟨hne, .inl ⟨m, ha, hb⟩⟩
    · exact .inr ⟨hne, .inr ⟨hne, ha⟩⟩

theorem Straight.andThen {a b : Effect σ} (ha : a.Straight) (hb : b.Straight) :
    (a.andThen b).Straight := by
  rintro s e s' (⟨m, -, h⟩ | ⟨-, h⟩)
  · exact hb _ _ _ h
  · exact ha _ _ _ h

/-- A loop is left through its test or its body: no jump goes further than the loop. -/
theorem Loop.straight {test : Test σ} {body step : Effect σ} : (Loop test body step).Straight := by
  intro s e s' h
  induction h with
  | done | testLeft | stepLeft => simp
  | @stopped _ _ _ e _ _ stops => cases e <;> simp_all [Ending.goesOn, Ending.outside]
  | again _ _ _ _ _ ih => exact ih

/-- A test may be moved into the body. -/
theorem loop_guarded (test : Test σ) (body step : Effect σ) :
    Loop test body step = Loop .holding (test.guard.andThen body) step := by
  funext s e s'
  refine propext ⟨fun h => ?_, fun h => ?_⟩
  · -- whatever ends the first loop at its test ends the second one in its body
    induction h with
    | @done s s' t =>
      have hbroke : (test.guard.andThen body) s .broke s' :=
        .inr ⟨by simp, .inr (.inl ⟨rfl, t⟩)⟩
      exact .stopped (e := .broke) ⟨rfl, rfl⟩ hbroke rfl
    | @testLeft s s' t =>
      have hleft : (test.guard.andThen body) s .left s' := .inr ⟨by simp, .inr (.inr ⟨rfl, t⟩)⟩
      exact .stopped (e := .left) ⟨rfl, rfl⟩ hleft rfl
    | stopped t b stops => exact .stopped ⟨rfl, rfl⟩ (.inl ⟨_, .inl ⟨rfl, t⟩, b⟩) stops
    | stepLeft t b on st => exact .stepLeft ⟨rfl, rfl⟩ (.inl ⟨_, .inl ⟨rfl, t⟩, b⟩) on st
    | again t b on st _ ih => exact .again ⟨rfl, rfl⟩ (.inl ⟨_, .inl ⟨rfl, t⟩, b⟩) on st ih
  · -- a guard that ends normally has held; one that does not has ended the loop
    have hbody : ∀ {s e s'}, (test.guard.andThen body) s e s' → e.goesOn = true →
        ∃ m, test s (some true) m ∧ body m e s' := by
      rintro s e s' (⟨m, ⟨-, t⟩ | ⟨⟨⟩, -⟩ | ⟨⟨⟩, -⟩, b⟩ | ⟨hne, ⟨rfl, -⟩ | ⟨rfl, -⟩ | ⟨rfl, -⟩⟩) on
      · exact ⟨m, t, b⟩
      · exact absurd rfl hne
      · cases on
      · cases on
    induction h with
    | done t => cases t.1
    | testLeft t => cases t.1
    | @stopped s m s' e t b stops =>
      obtain ⟨-, rfl⟩ := t
      rcases b with ⟨m, ⟨-, t⟩ | ⟨⟨⟩, -⟩ | ⟨⟨⟩, -⟩, b⟩ | ⟨hne, ⟨rfl, -⟩ | ⟨rfl, t⟩ | ⟨rfl, t⟩⟩
      · exact .stopped t b stops
      · exact absurd rfl hne
      · exact .done t
      · exact .testLeft t
    | stepLeft t b on st =>
      obtain ⟨-, rfl⟩ := t
      obtain ⟨m, t, b⟩ := hbody b on
      exact .stepLeft t b on st
    | again t b on st _ ih =>
      obtain ⟨-, rfl⟩ := t
      obtain ⟨m, t, b⟩ := hbody b on
      exact .again t b on st ih

/-- A step may be moved to the end of a body that never continues. -/
theorem loop_absorbs {body step : Effect σ} (test : Test σ)
    (hbody : ∀ s s', ¬ body s .continued s') (hstep : step.Straight) :
    Loop test body step = Loop test (body.andThen step) skip := by
  -- without a continue, a body that goes on has ended normally
  have hnormal : ∀ {s e s'}, body s e s' → e.goesOn = true → e = .normal := by
    intro s e s' b on
    cases e with
    | normal => rfl
    | continued => exact absurd b (hbody _ _)
    | broke | left => cases on
  funext s e s'
  refine propext ⟨fun h => ?_, fun h => ?_⟩
  · induction h with
    | done t => exact .done t
    | testLeft t => exact .testLeft t
    | @stopped s m s' e t b stops =>
      refine .stopped t (.inr ⟨?_, b⟩) stops
      rintro rfl
      cases stops
    | @stepLeft s m m' s' e t b on st =>
      obtain rfl := hnormal b on
      exact .stopped (e := .left) t (.inl ⟨m', b, st⟩) rfl
    | @again s m m' m'' s' e e' t b on st _ ih =>
      obtain rfl := hnormal b on
      exact .again (e := .normal) t (.inl ⟨m', b, st⟩) rfl ⟨rfl, rfl⟩ ih
  · induction h with
    | done t => exact .done t
    | testLeft t => exact .testLeft t
    | @stopped s m s' e t b stops =>
      rcases b with ⟨m', b, st⟩ | ⟨-, b⟩
      · rcases hstep _ _ _ st with rfl | rfl
        · cases stops
        · exact .stepLeft (e := .normal) t b rfl st
      · exact .stopped t b stops
    | stepLeft t b on st => cases st.1
    | @again s m m' m'' s' e e' t b on st _ ih =>
      obtain ⟨-, rfl⟩ := st
      rcases b with ⟨m', b, st⟩ | ⟨hne, b⟩
      · rcases hstep _ _ _ st with rfl | rfl
        · exact .again (e := .normal) t b rfl st ih
        · cases on
      · exact absurd (hnormal b on) hne

end Effect

namespace Test

/-- A test behind an effect breaks where the test breaks. -/
theorem guard_after {a : Effect σ} (ha : a.Straight) (t : Test σ) :
    (after a t).guard = a.andThen t.guard := by
  funext s e s'
  refine propext ⟨?_, ?_⟩
  · rintro (⟨rfl, ⟨m, h, ht⟩ | ⟨⟨⟩, -⟩⟩ | ⟨rfl, ⟨m, h, ht⟩ | ⟨⟨⟩, -⟩⟩ |
      ⟨rfl, ⟨m, h, ht⟩ | ⟨-, h⟩⟩)
    · exact .inl ⟨m, h, .inl ⟨rfl, ht⟩⟩
    · exact .inl ⟨m, h, .inr (.inl ⟨rfl, ht⟩)⟩
    · exact .inl ⟨m, h, .inr (.inr ⟨rfl, ht⟩)⟩
    · exact .inr ⟨by simp, h⟩
  · rintro (⟨m, h, ⟨rfl, ht⟩ | ⟨rfl, ht⟩ | ⟨rfl, ht⟩⟩ | ⟨hne, h⟩)
    · exact .inl ⟨rfl, .inl ⟨m, h, ht⟩⟩
    · exact .inr (.inl ⟨rfl, .inl ⟨m, h, ht⟩⟩)
    · exact .inr (.inr ⟨rfl, .inl ⟨m, h, ht⟩⟩)
    · obtain rfl := (ha _ _ _ h).resolve_left hne
      exact .inr (.inr ⟨rfl, .inr ⟨rfl, h⟩⟩)

end Test

end

/-! ## §3. Interpretations. -/

/-- What code does and what conditions are worth. -/
structure Interpretation (σ : Type) where
  /-- The action of a piece of code. -/
  act : Node → Effect σ
  /-- An action does not jump within the loop around it. -/
  act_straight : ∀ n, (act n).Straight
  /-- The value of a condition. -/
  eval : Node → Valuation σ
  /-- A negated condition has the other value. -/
  eval_not : ∀ n s b s', eval (.unary .before "!" n) s b s' ↔ eval n s (!b) s'
  /-- The declaration of a function whose body has an effect. -/
  declare : String → List String → Effect σ → σ → σ → Prop

namespace Interpretation

variable {σ : Type} (I : Interpretation σ)

/-- The condition of a loop; one that was left out holds. -/
def holds (cond : Node) : Test σ := if cond.isAbsent then .holding else .judged (I.eval cond)

mutual

/-- The effect of a statement.  An expression is evaluated for its effect. -/
def means : Node → Effect σ
  | .absent => .skip
  | .block ns => meansAll ns
  | .splice ns => meansAll ns
  | .toplevel ns => meansAll ns
  | .ifElse c yes no => .choose (I.eval c) (means yes) (means no)
  | .forLoop init cond step body =>
      (means init).andThen (.Loop (I.holds cond) (means body) (means step))
  | .breakTo label => if label = "" then .jump .broke else I.act (.breakTo label)
  | .continueTo label => if label = "" then .jump .continued else I.act (.continueTo label)
  | .defun name params body => .always (I.declare name params (meansAll body))
  | n => if n.isExpression then I.act (.stat n) else I.act n

/-- The effect of statements one after the other. -/
def meansAll : List Node → Effect σ
  | [] => .skip
  | n :: ns => (means n).andThen (meansAll ns)

end

mutual

/-- The effect of an instruction. -/
def runs : Instr → Effect σ
  | .leaf command code _ =>
      if command = "break" then .jump .broke
      else if command = "continue" then .jump .continued
      else I.act code
  | .branch c yes no _ _ _ _ => .choose (I.eval c) (runsAll yes) (runsAll no)
  | .loop _ test step body _ _ => .Loop (tests test) (runsAll body) (runsAll step)
  | .defun name params body => .always (I.declare name params (runsAll body))

/-- The effect of instructions one after the other. -/
def runsAll : List Instr → Effect σ
  | [] => .skip
  | i :: rest => (runs i).andThen (runsAll rest)

/-- The test of a loop.  An empty one holds; otherwise its last instruction decides. -/
def tests : List Instr → Test σ
  | [] => .holding
  | i :: rest =>
      match test? i, rest with
      | some c, [] => .judged (I.eval c)
      | _, _ => .after (runs i) (tests rest)

end

theorem meansAll_append (ns ms : List Node) :
    I.meansAll (ns ++ ms) = (I.meansAll ns).andThen (I.meansAll ms) := by
  induction ns with
  | nil => rw [List.nil_append, meansAll, Effect.skip_andThen]
  | cons n ns ih => rw [List.cons_append, meansAll, meansAll, ih, Effect.andThen_assoc]

theorem meansAll_one (n : Node) : I.meansAll [n] = I.means n := by
  rw [meansAll, meansAll, Effect.andThen_skip]

mutual

/-- A statement and what it contributes to a list do the same. -/
theorem meansAll_inlined (n : Node) : I.meansAll n.inlined = I.means n := by
  cases n with
  | absent => rw [Node.inlined, meansAll, means]
  | splice ns => rw [Node.inlined, means, meansAll_flatten]
  | _ => exact meansAll_one I _
termination_by structural n

/-- Expanding splices does not change what a list does. -/
theorem meansAll_flatten (ns : List Node) : I.meansAll (Node.flatten ns) = I.meansAll ns := by
  cases ns with
  | nil => rw [Node.flatten]
  | cons n ns => rw [Node.flatten, meansAll_append, meansAll, meansAll_inlined, meansAll_flatten]
termination_by structural ns

end

/-- A negated break is the guard of a condition. -/
theorem guard_judged (c : Node) :
    (Test.judged (I.eval c)).guard =
      I.means (.ifElse (.unary .before "!" c) (.breakTo "") .absent) := by
  rw [means, means, means, if_pos rfl]
  funext s e s'
  refine propext ⟨?_, ?_⟩
  · rintro (⟨rfl, b, hb, hc⟩ | ⟨rfl, b, hb, hc⟩ | ⟨rfl, b, hb, hc⟩)
    · cases hb
      exact ⟨false, s', (I.eval_not c s false s').mpr hc, rfl, rfl⟩
    · cases hb
      exact ⟨true, s', (I.eval_not c s true s').mpr hc, rfl, rfl⟩
    · cases hb
  · rintro ⟨v, m, hc, h⟩
    rw [I.eval_not] at hc
    cases v with
    | false =>
      obtain ⟨rfl, rfl⟩ := h
      exact .inl ⟨rfl, true, rfl, hc⟩
    | true =>
      obtain ⟨rfl, rfl⟩ := h
      exact .inr (.inl ⟨rfl, false, rfl, hc⟩)

end Interpretation

end Resumable.Execution
