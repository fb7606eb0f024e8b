/-
  Resumable.Proofs.Walk.Layout — where the code of a statement stands.

  A walk hands the code of nested statements to branches, loops and function declarations, but it
  never takes the code of one expression statement apart: it stands in a row, in one list of the
  program (`Within`).  The codes of all expression statements follow each other in a walk over the
  program as the statements do in the source.

  Main statement: `Emits.laid`.
-/
import Mathlib.Data.List.Forall2
import Resumable.Proofs.Walk.Growth

namespace Resumable

namespace Node

/-! ## §1. Expression statements. -/

mutual

/-- The expressions that stand as statements in a statement, at any depth. -/
def effects : Node → List Node
  | stat e => [e]
  | block b => effectsAll b
  | splice ns => effectsAll ns
  | ifElse _ y n => effects y ++ effects n
  | forLoop i _ _ b => effects i ++ effects b
  | defun _ _ b => effectsAll b
  | n => if n.isExpression then [n] else []

/-- The expressions that stand as statements in a list. -/
def effectsAll : List Node → List Node
  | [] => []
  | n :: rest => effects n ++ effectsAll rest

end

end Node

namespace Program

namespace Instr

/-! ## §2. Places in a program. -/

/-- The lists that an instruction holds. -/
def lists : Instr → List (List Instr)
  | leaf _ _ _ => []
  | branch _ yes no _ _ _ _ => [yes, no]
  | loop _ test step body _ _ => [test, step, body]
  | defun _ _ body => [body]

theorem sublist_walkAll (list : List Instr) : list.Sublist (walkAll list) := by
  induction list with
  | nil => exact List.nil_sublist _
  | cons i rest ih =>
    rw [walkAll_cons]
    exact (ih.trans (List.sublist_append_right _ _)).cons_cons i

/-- A walk meets what the last instruction of a list holds. -/
theorem walkAll_inner_sublist (xs : List Instr) (i : Instr) :
    (walkAll xs ++ walkAll i.inner).Sublist (walkAll (xs ++ [i])) := by
  rw [walkAll_append, walkAll_cons]
  refine (List.Sublist.refl _).append ((List.sublist_append_left _ _).cons i)

/-- Instructions that stand one after the other in a list or in a list inside it. -/
inductive Within (code : List Instr) : List Instr → Prop
  | here {list : List Instr} (h : code <:+: list) : Within code list
  | deeper {i : Instr} {inner list : List Instr} (hi : i ∈ list) (hl : inner ∈ i.lists)
      (h : Within code inner) : Within code list

theorem Within.mono {code list list' : List Instr} (h : Within code list) (hl : list <:+: list') :
    Within code list' := by
  cases h with
  | here h => exact .here (h.trans hl)
  | deeper hi hin h => exact .deeper (hl.subset hi) hin h

/-- Instructions in a list that the last instruction holds. -/
theorem Within.last {code inner list : List Instr} {i : Instr} (h : Within code inner)
    (hl : inner ∈ i.lists) : Within code (list ++ [i]) :=
  .deeper (List.mem_append_right _ List.mem_cons_self) hl h

end Instr

/-- Lists of instructions that belong to things, one after the other in a walk. -/
def Rows {α : Type} (H : α → List Instr → Prop) (walk : List Instr) (as : List α) : Prop :=
  ∃ codes : List (List Instr), codes.flatten.Sublist walk ∧ List.Forall₂ H as codes

namespace Rows

variable {α : Type} {H H' : α → List Instr → Prop} {walk walk' : List Instr} {as bs : List α}

theorem nil : Rows H walk [] := ⟨[], List.nil_sublist _, .nil⟩

/-- The first thing of a list. -/
theorem single {a : α} {code : List Instr} (h : H a code) (hw : code.Sublist walk) :
    Rows H walk [a] :=
  ⟨[code], by rwa [List.flatten_singleton], .cons h .nil⟩

theorem imp (h : Rows H walk as) (hH : ∀ a code, H a code → H' a code) : Rows H' walk as := by
  obtain ⟨codes, hwalk, hcodes⟩ := h
  exact ⟨codes, hwalk, hcodes.imp hH⟩

theorem append (h : Rows H walk as) (h' : Rows H walk' bs) :
    Rows H (walk ++ walk') (as ++ bs) := by
  obtain ⟨codes, hwalk, hcodes⟩ := h
  obtain ⟨codes', hwalk', hcodes'⟩ := h'
  refine ⟨codes ++ codes', ?_, List.rel_append hcodes hcodes'⟩
  rw [List.flatten_append]
  exact hwalk.append hwalk'

theorem sublist (h : Rows H walk as) (hw : walk.Sublist walk') : Rows H walk' as := by
  obtain ⟨codes, hwalk, hcodes⟩ := h
  exact ⟨codes, hwalk.trans hw, hcodes⟩

end Rows

namespace Walk

open Instr (Within)

/-! ## §3. Derivations. -/

/-- The expressions that stand as statements in a job. -/
def Job.effects : Job → List Node
  | .effect n => [n]
  | .stmt n | .region n => n.effects
  | .stmts ns => Node.effectsAll ns
  | _ => []

theorem effects_of_isExpression {n : Node} (h : n.isExpression = true) : n.effects = [n] := by
  cases n with
  | stat _ | block _ | splice _ | ifElse _ _ _ | forLoop _ _ _ _ | defun _ _ _ => cases h
  | _ => rw [Node.effects, if_pos h] <;> (intros; contradiction)

theorem Job.Leads.effects {job job' : Job} (h : job.Leads job') (hs : ∀ n, job ≠ .step n) :
    job.effects = job'.effects := by
  cases h with
  | expression hn => exact effects_of_isExpression hn
  | stat _ | block _ | splice _ => simp [Job.effects, Node.effects]
  | var ds =>
    rw [Job.effects, Node.effects]
    · rfl
    all_goals
      intros
      contradiction
  | region n => rfl
  | step n => exact absurd rfl (hs n)

theorem Job.Void.effects {job : Job} (h : job.Void) : job.effects = [] := by
  cases h with
  | region => simp [Job.effects, Node.effects, Node.isExpression, Node.kind?]
  | test | step => rfl

theorem effects_of_isPassed {n : Node} (h : isPassed n = true) : n.effects = [] := by
  cases n <;> cases h <;>
    simp [Node.effects, Node.isExpression, Node.kind?, Kind.isExpression]

/-- The code of an expression statement, in a row and in one list of the code of a job. -/
def Holds (env : Surface) (σ σ' : Scope) (code : List Instr) (e : Node) (own : List Instr) : Prop :=
  Within own code ∧ ∃ (σ₁ σ₂ : Scope) (vs : List Node) (split : Bool),
    Emits env (.effect e) σ₁ vs split own σ₂ ∧ σ.Grows σ₁ ∧ σ₂.Grows σ'

/-- The codes of expression statements, one after the other in a walk. -/
def Laid (env : Surface) (σ σ' : Scope) (code walk : List Instr) (es : List Node) : Prop :=
  ∃ codes : List (List Instr), codes.flatten.Sublist walk ∧
    List.Forall₂ (Holds env σ σ' code) es codes

section

variable {env : Surface} {job : Job} {σ σ' σ₁ σ₂ : Scope} {es es' : List Node} {vs : List Node}
  {split : Bool} {code list walk walk' : List Instr}

theorem Laid.nil : Laid env σ σ' code walk [] := Rows.nil

theorem Laid.mono (h : Laid env σ₁ σ₂ code walk es)
    (hcode : ∀ own, Within own code → Within own list) (hσ : σ.Grows σ₁) (hσ' : σ₂.Grows σ') :
    Laid env σ σ' list walk es := by
  refine Rows.imp h fun e own hown => ?_
  obtain ⟨hin, σ₃, σ₄, vs, split, hemits, h₁, h₂⟩ := hown
  exact ⟨hcode own hin, σ₃, σ₄, vs, split, hemits, hσ.trans h₁, h₂.trans hσ'⟩

theorem Laid.append (h : Laid env σ σ' code walk es) (h' : Laid env σ σ' code walk' es') :
    Laid env σ σ' code (walk ++ walk') (es ++ es') := Rows.append h h'

theorem Laid.sublist (h : Laid env σ σ' code walk es) (hw : walk.Sublist walk') :
    Laid env σ σ' code walk' es := Rows.sublist h hw

/-- Every expression statement has its code; the codes follow each other as the statements do. -/
theorem Emits.laid (h : Emits env job σ vs split code σ') (hs : ∀ n, job ≠ .step n) :
    Laid env σ σ' code (Instr.walkAll code) job.effects := by
  induction h with
  | @effect σ σ' n v split code value =>
    -- all that an expression statement emits is its own code
    exact Rows.single ⟨.here (List.infix_refl _), σ, σ', [v], split, .effect value, .refl _,
      .refl _⟩ (Instr.sublist_walkAll _)
  | leads hl _ ih =>
    rw [hl.effects hs]
    exact ih (by cases hl <;> nofun)
  | void hv =>
    rw [hv.effects]
    exact .nil
  | passed hp =>
    rw [Job.effects, effects_of_isPassed hp]
    exact .nil
  | stmtsCons head tail ih ih' =>
    rw [Job.effects, Node.effectsAll, Instr.walkAll_append]
    refine .append ((ih nofun).mono ?_ (.refl _) tail.grows)
      ((ih' nofun).mono ?_ head.grows (.refl _))
    · exact fun _ hin => hin.mono (List.prefix_append _ _).isInfix
    · exact fun _ hin => hin.mono (List.suffix_append _ _).isInfix
  | branch cond yesDone noDone _ ih ih' =>
    rw [Job.effects, Node.effects]
    refine Laid.sublist (.append ((ih nofun).mono ?_ cond.grows noDone.grows)
      ((ih' nofun).mono ?_ (cond.grows.trans yesDone.grows) (.refl _))) ?_
    · exact fun _ hin => hin.last List.mem_cons_self
    · exact fun _ hin => hin.last (List.mem_cons_of_mem _ List.mem_cons_self)
    · refine .trans ?_ (Instr.walkAll_inner_sublist _ _)
      rw [Instr.inner, Instr.walkAll_append]
      exact List.sublist_append_right _ _
  | loop initDone testDone stepDone bodyDone ih _ _ ih' =>
    have hahead := testDone.grows.trans stepDone.grows
    rw [Job.effects, Node.effects]
    -- the lists of the test and of the step have no statements; a walk meets them in between
    refine Laid.sublist (.append ((ih nofun).mono ?_ (.refl _) (hahead.trans bodyDone.grows))
      ((ih' nofun).mono ?_ (initDone.grows.trans hahead) (.refl _))) ?_
    · exact fun _ hin => hin.mono (List.prefix_append _ _).isInfix
    · exact fun _ hin =>
        hin.last (List.mem_cons_of_mem _ (List.mem_cons_of_mem _ List.mem_cons_self))
    · refine .trans ?_ (Instr.walkAll_inner_sublist _ _)
      rw [Instr.inner, Instr.walkAll_append]
      exact (List.Sublist.refl _).append (List.sublist_append_right _ _)
  | @declaration σ σ' name params ns vs split list body ih =>
    rw [Job.effects, Node.effects]
    refine Laid.sublist ((ih nofun).mono ?_ (.refl _) (.refl _)) ?_
    · exact fun _ hin => .deeper List.mem_cons_self List.mem_cons_self hin
    · exact Instr.walkAll_inner_sublist [] (.defun name params list)
  | _ => exact .nil

end

end Walk

end Program

end Resumable
