/-
  Resumable.Proofs.Execution.Steps — when the step of a loop runs in the tree.

  In a program the step of a loop is a list of its own and runs behind the body, however the body
  goes on.  The tree keeps a step without calls in the head of the loop, where a continue finds it,
  but a step that was split stands at the end of the body, where only a body that falls through
  gets to it.  So a round runs the step once or, if it was split and the body continues the loop,
  not at all.

  Main statements:
    * `control_mem_tree`     — every branch and loop of a program stands in its tree;
    * `transform_runs_steps` — what the rounds of each loop run, and the one way to miss a step;
    * `transform_skips_step` — a loop that goes on without its step.
-/
import Resumable.Proofs.Execution.Agreement
import Resumable.Proofs.Execution.Paths
import Resumable.Proofs.Sorts.Gaps
import Resumable.Proofs.Walk.Splits

namespace Resumable

/-! ## §1. Branches and loops in the tree. -/

namespace Node

/-- Whether a node has a body that runs when it is called. -/
def isCallable : Node → Bool
  | .function _ _ _ | .defun _ _ _ => true
  | _ => false

mutual

/-- What stands in a list element stands in what the element contributes, unless it is a splice that
    is dissolved there. -/
theorem everything_inlined {n m : Node} (h : m ∈ n.everything) :
    (∃ k ∈ n.inlined, m ∈ k.everything) ∨
      ∃ ms, m = .splice ms ∧ flatten ms <:+: n.inlined := by
  cases n with
  | absent =>
    rw [everything_absent] at h
    cases h
  | splice ns =>
    rw [everything_eq rfl, List.mem_cons] at h
    rcases h with rfl | h
    · exact .inr ⟨ns, rfl, List.infix_rfl⟩
    obtain ⟨p, hp, hmem⟩ := List.mem_flatMap.mp h
    obtain ⟨k, hk, rfl⟩ := List.mem_map.mp hp
    rw [inlined]
    exact everything_flatten hk hmem
  | _ => exact .inl ⟨_, List.mem_singleton.mpr rfl, h⟩
termination_by structural n

theorem everything_flatten {ns : List Node} {k m : Node} (hk : k ∈ ns) (h : m ∈ k.everything) :
    (∃ j ∈ flatten ns, m ∈ j.everything) ∨ ∃ ms, m = .splice ms ∧ flatten ms <:+: flatten ns := by
  cases ns with
  | nil => cases hk
  | cons n ns =>
    rw [flatten]
    rcases List.mem_cons.mp hk with hk | hk
    · rw [hk] at h
      rcases everything_inlined h with ⟨j, hj, hmem⟩ | ⟨ms, hm, hinfix⟩
      · exact .inl ⟨j, List.mem_append_left _ hj, hmem⟩
      · exact .inr ⟨ms, hm, hinfix.trans (List.prefix_append _ _).isInfix⟩
    · rcases everything_flatten hk h with ⟨j, hj, hmem⟩ | ⟨ms, hm, hinfix⟩
      · exact .inl ⟨j, List.mem_append_right _ hj, hmem⟩
      · exact .inr ⟨ms, hm, hinfix.trans (List.suffix_append _ _).isInfix⟩
termination_by structural ns

end

end Node

namespace Program

open Instr (Plain Shaped TestShape StepShape walkAll)

namespace Instr

/-- Whether an instruction is a loop. -/
def isLoop : Instr → Bool
  | loop _ _ _ _ _ _ => true
  | _ => false

/-- The statements of a loop's tree that stand in its body in front of a split step. -/
def ahead : Instr → List Node
  | loop c test _ body condSplit _ =>
      (if condSplit then
        (rebuildAll test).dropLast ++ [.ifElse (.unary .before "!" c) (.breakTo "") .absent]
      else []) ++ rebuildAll body
  | _ => []

theorem no_control_of_leaf {command : String} {n : Node} {async : Bool} {i : Instr}
    (h : i ∈ walkAll [leaf command n async]) : i.isControl = false := by
  rw [walkAll_cons] at h
  rcases List.mem_cons.mp h with rfl | h
  · rfl
  · cases h

/-- No branch and no loop in statements and calls. -/
theorem no_control_of_plain {code : List Instr} (h : ∀ i ∈ code, Plain i) {i : Instr}
    (hi : i ∈ walkAll code) : i.isControl = false := by
  induction code with
  | nil => cases hi
  | cons j code ih =>
    obtain ⟨hj, hcode⟩ := List.forall_mem_cons.mp h
    rw [← List.singleton_append, walkAll_append] at hi
    rcases List.mem_append.mp hi with hi | hi
    · cases hj <;> exact no_control_of_leaf hi
    · exact ih hcode hi

theorem TestShape.no_control {c : Node} {test : List Instr} {condSplit : Bool}
    (h : TestShape c test condSplit) {i : Instr} (hi : i ∈ walkAll test) : i.isControl = false := by
  cases h with
  | none => cases hi
  | kept _ => exact no_control_of_leaf hi
  | split hcode =>
    rw [walkAll_append] at hi
    rcases List.mem_append.mp hi with hi | hi
    · exact no_control_of_plain hcode hi
    · exact no_control_of_leaf hi

theorem StepShape.no_control {e : Node} {step : List Instr} (h : StepShape e step) {i : Instr}
    (hi : i ∈ walkAll step) : i.isControl = false := by
  cases h with
  | kept _ => exact no_control_of_leaf hi
  | split hcode => exact no_control_of_plain hcode hi

end Instr

open Node (mem_everything_self mem_everything_of_position)

/-- A property that a construct has if something that stands in it does, unless it is a function. -/
structure Rises (P : Node → Prop) : Prop where
  part {n : Node} {p : Position × Node} (hn : n.isCallable = false) (hp : p ∈ n.positions)
    (h : P p.2) : P n
  present {n : Node} (h : P n) : n.isAbsent = false

theorem rises_everything (m : Node) : Rises (m ∈ ·.everything) where
  part _ hp h := mem_everything_of_position hp h
  present {n} h := by
    cases n with
    | absent =>
      rw [Node.everything_absent] at h
      cases h
    | _ => rfl

section

variable {P : Node → Prop} {cond n : Node} {statements : List Node} {yes no : List Node × Node}

theorem isAbsent_rebuildBranch : (rebuildBranch cond yes no).isAbsent = false := by
  unfold rebuildBranch
  dsimp only
  split <;> rfl

/-- What stands in a statement of a side is hoisted with it or stands in what is left of it. -/
theorem Rises.rebuildSide (hP : Rises P) (temp : Option String) (hn : n ∈ statements) (h : P n) :
    (∃ k ∈ (rebuildSide temp statements).1, P k) ∨ P (rebuildSide temp statements).2 := by
  cases temp with
  | some t => exact .inl ⟨n, hn, h⟩
  | none => exact .inr (hP.part (p := (.statement, n)) rfl (List.mem_map_of_mem hn) h)

/-- What was hoisted or is left of one of its sides stands in a branch. -/
theorem Rises.rebuildBranch (hP : Rises P)
    (h : (∃ k ∈ yes.1 ++ no.1, P k) ∨ P yes.2 ∨ P no.2) : P (rebuildBranch cond yes no) := by
  -- the branch itself holds what is left of the sides
  have left : P yes.2 ∨ P no.2 → P (Node.ifElse cond yes.2 no.2) := by
    rintro (h | h)
    · exact hP.part (p := (.statement, yes.2)) rfl (by simp [Node.positions]) h
    · exact hP.part (p := (.optionalStatement, no.2)) rfl (by simp [Node.positions]) h
  unfold Program.rebuildBranch
  dsimp only
  split
  next hnone =>
    rcases h with ⟨k, hk, -⟩ | h
    · rw [List.isEmpty_iff.mp hnone] at hk
      cases hk
    · exact left h
  next =>
    obtain ⟨k, hk, hmem⟩ : ∃ k ∈ yes.1 ++ no.1 ++ [.ifElse cond yes.2 no.2], P k := by
      rcases h with ⟨k, hk, hmem⟩ | h
      · exact ⟨k, List.mem_append_left _ hk, hmem⟩
      · exact ⟨_, List.mem_append_right _ List.mem_cons_self, left h⟩
    have hk' : k ∈ (yes.1 ++ no.1 ++ [Node.ifElse cond yes.2 no.2]).filter
        (fun k : Node => !k.isAbsent) :=
      List.mem_filter.mpr ⟨hk, by rw [hP.present hmem]; rfl⟩
    exact hP.part (p := (.statement, k)) rfl (List.mem_map_of_mem hk') hmem

end

section

variable {P : Node → Prop} {c e n : Node} {yes no test step body : List Instr} {hasElse : Bool}
  {shape : Shape} {yesTemp noTemp : Option String} {condSplit : Bool}

/-- What stands in a statement of one of its lists stands in a branch. -/
theorem Rises.branch (hP : Rises P) (helse : hasElse = false → no = [])
    (hn : n ∈ rebuildAll yes ∨ n ∈ rebuildAll no) (h : P n) :
    P (rebuild (.branch c yes no hasElse shape yesTemp noTemp)) := by
  rw [rebuild]
  refine hP.rebuildBranch ?_
  rcases hn with hn | hn
  · refine (hP.rebuildSide yesTemp hn h).imp ?_ .inl
    exact fun ⟨k, hk, hmem⟩ => ⟨k, List.mem_append_left _ hk, hmem⟩
  · cases hasElse with
    | false =>
      rw [helse rfl] at hn
      cases hn
    | true =>
      refine (hP.rebuildSide noTemp hn h).imp ?_ .inr
      exact fun ⟨k, hk, hmem⟩ => ⟨k, List.mem_append_right _ hk, hmem⟩

/-- What stands in a statement of its tree's body stands in a loop. -/
theorem Rises.loop (hP : Rises P)
    (hn : n ∈ (Instr.loop c test step body condSplit e).ahead ++
      if e.isAbsent then rebuildAll step else []) (h : P n) :
    P (rebuild (.loop c test step body condSplit e)) := by
  have hbody : P (.block ((Instr.loop c test step body condSplit e).ahead ++
      if e.isAbsent then rebuildAll step else [])) :=
    hP.part (p := (.statement, n)) rfl (List.mem_map_of_mem hn) h
  rw [rebuild, rebuildLoop]
  exact hP.part (p := (.statement, .block _)) rfl (.tail _ (.tail _ (.tail _ (.head _)))) hbody

end

mutual

/-- A branch or a loop that a walk over an instruction meets stands in the statement of the
    instruction. -/
theorem rebuild_mem_everything {i l : Instr} (hi : Shaped i) (hl : l ∈ i.walk)
    (hcontrol : l.isControl = true) : rebuild l ∈ (rebuild i).everything := by
  have noControl : l.isControl = false → rebuild l ∈ (rebuild i).everything := by
    intro h
    rw [hcontrol] at h
    cases h
  have rises := rises_everything (rebuild l)
  rw [Instr.walk_eq, List.mem_cons] at hl
  cases i with
  | leaf command code async =>
    rcases hl with rfl | hinner
    · exact noControl rfl
    · cases hinner
  | branch c yes no hasElse shape yesTemp noTemp =>
    cases hi with
    | plain hp => cases hp
    | branch hyes hno helse _ _ =>
      rcases hl with rfl | hinner
      · refine mem_everything_self ?_
        rw [rebuild]
        exact isAbsent_rebuildBranch
      rw [Instr.inner, Instr.walkAll_append, List.mem_append] at hinner
      rcases hinner with hinner | hinner
      · obtain ⟨n, hn, hmem⟩ := rebuildAll_mem_everything hyes hinner hcontrol
        exact rises.branch helse (.inl hn) hmem
      · obtain ⟨n, hn, hmem⟩ := rebuildAll_mem_everything hno hinner hcontrol
        exact rises.branch helse (.inr hn) hmem
  | loop c test step body condSplit e =>
    cases hi with
    | plain hp => cases hp
    | loop htest hstep hbody =>
      rcases hl with rfl | hinner
      · exact mem_everything_self rfl
      rw [Instr.inner, Instr.walkAll_append, Instr.walkAll_append, List.mem_append,
        List.mem_append] at hinner
      rcases hinner with (hinner | hinner) | hinner
      · exact noControl (htest.no_control hinner)
      · exact noControl (hstep.no_control hinner)
      · obtain ⟨n, hn, hmem⟩ := rebuildAll_mem_everything hbody hinner hcontrol
        exact rises.loop (List.mem_append_left _ (List.mem_append_right _ hn)) hmem
  | defun name params body =>
    cases hi with
    | plain hp => cases hp
    | defun hbody =>
      rcases hl with rfl | hinner
      · exact noControl rfl
      obtain ⟨n, hn, hmem⟩ := rebuildAll_mem_everything hbody hinner hcontrol
      rw [rebuild]
      exact mem_everything_of_position (p := (.statement, n)) (List.mem_map_of_mem hn) hmem
termination_by structural i

theorem rebuildAll_mem_everything {is : List Instr} {l : Instr} (his : ∀ i ∈ is, Shaped i)
    (hl : l ∈ walkAll is) (hcontrol : l.isControl = true) :
    ∃ n ∈ rebuildAll is, rebuild l ∈ n.everything := by
  cases is with
  | nil => cases hl
  | cons i is =>
    obtain ⟨hi, his⟩ := List.forall_mem_cons.mp his
    rw [walkAll] at hl
    rw [rebuildAll]
    rcases List.mem_append.mp hl with hl | hl
    · exact ⟨_, List.mem_cons_self, rebuild_mem_everything hi hl hcontrol⟩
    · obtain ⟨n, hn, hmem⟩ := rebuildAll_mem_everything his hl hcontrol
      exact ⟨n, List.mem_cons_of_mem _ hn, hmem⟩
termination_by structural is

end

/-- Every branch and loop of a program stands in its tree, unless it is a splice that the list of
    the unit dissolved. -/
theorem control_mem_tree {naming : Naming} {isAsync : String → Bool} {unit : Node} {t : Transformed}
    (h : (transform naming isAsync unit).1 = .ok t) {l : Instr} (hl : l ∈ walkAll t.program)
    (hcontrol : l.isControl = true) : rebuild l ∈ t.tree.everything ∨
      ∃ ms, rebuild l = .splice ms ∧ Node.flatten ms <:+: Node.flatten (rebuildAll t.program) := by
  obtain ⟨body, σ', -, hd⟩ := transform_emits h
  obtain ⟨vs, split, he⟩ := hd.emits
  obtain ⟨n, hn, hmem⟩ := rebuildAll_mem_everything (he.shaped nofun) hl hcontrol
  refine (Node.everything_flatten hn hmem).imp_left ?_
  rintro ⟨k, hk, hmem⟩
  rw [transform_tree h]
  exact mem_everything_of_position (p := (.statement, k)) (List.mem_map_of_mem hk) hmem

/-- Every loop of a program stands in its tree. -/
theorem loop_mem_tree {naming : Naming} {isAsync : String → Bool} {unit : Node} {t : Transformed}
    (h : (transform naming isAsync unit).1 = .ok t) {l : Instr} (hl : l ∈ walkAll t.program)
    (hloop : l.isLoop = true) : rebuild l ∈ t.tree.everything := by
  cases l with
  | loop c test step body condSplit e =>
    refine (control_mem_tree h hl rfl).resolve_right ?_
    rintro ⟨ms, heq, -⟩
    cases heq
  | _ => cases hloop

/-! ## §2. Rounds. -/

open Execution (Path Stretch Exit Round hasContinueAny path_append path_value_falls path_block)

section

variable {ran : List Node} {e : Exit} {es : List Node}

/-- The one path through expression statements that falls through. -/
theorem path_stats_falls (hes : ∀ e ∈ es, e.isAbsent = false) :
    Path (.all (es.map .stat)) ran .falls ↔ ran = es := by
  induction es generalizing ran with
  | nil => exact Execution.path_skip.trans ⟨fun h => h.1, fun h => ⟨h, rfl⟩⟩
  | cons e es ih =>
    obtain ⟨he, hes⟩ := List.forall_mem_cons.mp hes
    rw [List.map_cons, Stretch.all, Execution.path_both]
    refine ⟨?_, fun h => .inl ⟨[e], es, ?_, (ih hes).mpr rfl, h⟩⟩
    · rintro (⟨before, after, hstat, hrest, rfl⟩ | ⟨-, hne⟩)
      · rw [Execution.path_stat, path_value_falls, he] at hstat
        rw [hstat, (ih hes).mp hrest]
        rfl
      · exact absurd rfl hne
    · exact Execution.path_stat.mpr (.done he)

/-- A round leads through the body and evaluates the step in the head. -/
theorem round_iff {init test step body : Node} :
    Round (.forLoop init test step body) ran e ↔
      ∃ before, Path (.one [] body) before e ∧ e.goesOn [] = true ∧
        ran = before ++ if step.isAbsent then [] else [step] := by
  constructor
  · intro h
    cases h with
    | mk inside on stepped => exact ⟨_, inside, on, by rw [path_value_falls.mp stepped]⟩
  · rintro ⟨before, inside, on, rfl⟩
    exact .mk inside on (path_value_falls.mpr rfl)

theorem goesOn_iff : e.goesOn [] = true ↔ e = .falls ∨ e = .continues "" := by
  cases e <;> simp [Exit.goesOn]

/-- A round of a loop whose body ends with expression statements. -/
theorem round_stats {init test step : Node} {front : List Node}
    (hes : ∀ e ∈ es, e.isAbsent = false) :
    Round (.forLoop init test step (.block (front ++ es.map .stat))) ran e ↔
      ∃ before, Path (.all front) before e ∧ e.goesOn [] = true ∧
        ran = before ++ ((if e = .falls then es else []) ++
          if step.isAbsent then [] else [step]) := by
  rw [round_iff]
  constructor
  · rintro ⟨inside, hin, on, rfl⟩
    rw [path_block, path_append] at hin
    rcases hin with ⟨before, after, hfront, hafter, rfl⟩ | ⟨hfront, hne⟩
    · -- the statements at the end are run only by a body that falls through
      obtain rfl : e = .falls := by
        rcases hafter.stats_exit with he | he
        · exact he
        · rw [he] at on
          cases on
      rw [(path_stats_falls hes).mp hafter]
      exact ⟨before, hfront, on, by rw [if_pos rfl, List.append_assoc]⟩
    · exact ⟨inside, hfront, on, by rw [if_neg hne, List.nil_append]⟩
  · rintro ⟨before, hfront, on, rfl⟩
    by_cases he : e = .falls
    · subst he
      refine ⟨before ++ es, path_block.mpr (path_append.mpr (.inl ?_)), on, ?_⟩
      · exact ⟨before, es, hfront, (path_stats_falls hes).mpr rfl, rfl⟩
      · rw [if_pos rfl, List.append_assoc]
    · refine ⟨before, path_block.mpr (path_append.mpr (.inr ⟨hfront, he⟩)), on, ?_⟩
      rw [if_neg he, List.nil_append]

end

/-! ## §3. Steps. -/

section

variable {env : Surface} {job : Walk.Job} {σ σ' : Scope} {n v : Node} {vs : List Node}
  {split : Bool} {code : List Instr}

/-- The statements that stand for some instructions are expressions, none of them missing. -/
def Expressed (code : List Instr) (es : List Node) : Prop :=
  rebuildAll code = es.map .stat ∧ ∀ e ∈ es, e.isAbsent = false

theorem Expressed.append {xs ys : List Instr} {es fs : List Node} (h : Expressed xs es)
    (h' : Expressed ys fs) : Expressed (xs ++ ys) (es ++ fs) := by
  refine ⟨?_, List.forall_mem_append.mpr ⟨h.2, h'.2⟩⟩
  rw [Execution.Interpretation.rebuildAll_append, h.1, h'.1, List.map_append]

theorem Expressed.one {i : Instr} {e : Node} (h : rebuild i = .stat e)
    (he : e.isAbsent = false) : Expressed [i] [e] :=
  ⟨by rw [rebuildAll, rebuildAll, h]; rfl, by simpa using he⟩

/-- All that the walk of values leaves is expression statements. -/
theorem Walk.Emits.expressed (h : Walk.Emits env job σ vs split code σ') :
    job.isValue = true → ∃ es, Expressed code es := by
  induction h with
  | reference | literal | copied | operandsNil => exact fun _ => ⟨[], rfl, by simp⟩
  | kept _ _ ih => exact fun _ => ih rfl
  | captured _ _ ih =>
    intro _
    obtain ⟨es, hes⟩ := ih rfl
    exact ⟨_, hes.append (.one rfl rfl)⟩
  | assigned _ _ ih =>
    intro _
    obtain ⟨es, hes⟩ := ih rfl
    exact ⟨_, hes.append (.one rfl rfl)⟩
  | called _ ih =>
    intro _
    obtain ⟨es, hes⟩ := ih rfl
    exact ⟨_, hes.append ((Expressed.one rfl rfl).append (.one (i := .set _ _) rfl rfl))⟩
  | operandsCons _ _ ih ih' =>
    intro _
    obtain ⟨es, hes⟩ := ih rfl
    obtain ⟨fs, hfs⟩ := ih' rfl
    exact ⟨_, hes.append hfs⟩
  | leads hl => cases hl <;> exact fun h => absurd h Bool.false_ne_true
  | void hv => cases hv <;> exact fun h => absurd h Bool.false_ne_true
  | _ => exact fun h => absurd h Bool.false_ne_true

/-- A step is left out, or split because it has a call, or kept as it is. -/
theorem Walk.Emits.step_cases (h : Walk.Emits env (.step n) σ [v] split code σ') :
    (n.analysedCalls = [] ∧ split = false ∧ v = .absent ∧ code = []) ∨
    (n.analysedCalls ≠ [] ∧ split = true ∧ ∃ es, Expressed code es) ∨
    (n.analysedCalls = [] ∧ split = false ∧ v.isAbsent = false ∧ code = [.stat v]) := by
  have hiff : split = true ↔ n.analysedCalls ≠ [] := h.split_iff
  cases h with
  | void hv =>
    cases hv
    exact .inl ⟨Node.analysedCalls_absent, rfl, rfl, rfl⟩
  | leads hl done =>
    cases hl
    cases done with
    | void hv => cases hv
    | leads hl => cases hl
    | effect value =>
      cases split with
      | true =>
        obtain ⟨es, hes⟩ := value.expressed rfl
        refine .inr (.inl ⟨hiff.mp rfl, rfl, es, ?_⟩)
        rwa [Walk.unsplitStat, if_pos rfl, List.append_nil]
      | false =>
        obtain ⟨rfl, hv⟩ := value.kept_value
        have hcalls : n.analysedCalls = [] := by simpa using hiff
        exact .inr (.inr ⟨hcalls, rfl, Node.isAbsent_of_isExpression hv, rfl⟩)

end

/-- What the rounds of a loop's tree run, for a loop of the source and its instruction: the test
    and the body, and then once what the program has in the list of the step.  Only if the step has
    a call and the body continues the loop, it is not run. -/
inductive StepRuns (tree : Node) : Node → Instr → Prop
  | branch {c yes no : Node} {i : Instr} : StepRuns tree (.ifElse c yes no) i
  | loop {init cond step body c e : Node} {test stepList bodyList : List Instr} {condSplit : Bool}
      {l : Instr} {es : List Node} (isLoop : l = .loop c test stepList bodyList condSplit e)
      (inTree : rebuild l ∈ tree.everything)
      (steps : rebuildAll stepList = es.map .stat)
      (falls : ∀ ran, Round (rebuild l) ran .falls ↔
        ∃ before, Path (.all l.ahead) before .falls ∧ ran = before ++ es)
      (continued : ∀ ran, Round (rebuild l) ran (.continues "") ↔
        ∃ before, Path (.all l.ahead) before (.continues "") ∧
          ran = before ++ if step.analysedCalls.isEmpty then es else [])
      (ends : ∀ ran e, Round (rebuild l) ran e → e = .falls ∨ e = .continues "")
      (belongs : ∀ before, Path (.all l.ahead) before (.continues "") →
        hasContinueAny (rebuildAll bodyList) = true) :
      StepRuns tree (.forLoop init cond step body) l

section

variable {init test e cond : Node} {testList stepList bodyList : List Instr} {condSplit : Bool}
  {es last : List Node}

/-- The rounds of a loop whose tree has some expression statements at the end of the body. -/
theorem round_loop (hlast : (if e.isAbsent then rebuildAll stepList else []) = last.map .stat)
    (hpresent : ∀ e ∈ last, e.isAbsent = false) {ran : List Node} {exit : Exit} :
    Round (rebuild (.loop cond testList stepList bodyList condSplit e)) ran exit ↔
      ∃ before, Path (.all (Instr.ahead (.loop cond testList stepList bodyList condSplit e)))
          before exit ∧ exit.goesOn [] = true ∧
        ran = before ++ ((if exit = .falls then last else []) ++
          if e.isAbsent then [] else [e]) := by
  rw [rebuild, rebuildLoop, hlast]
  exact round_stats hpresent

theorem no_continue_of_plain {code : List Instr} (h : ∀ i ∈ code, Plain i) :
    hasContinueAny (rebuildAll code) = false := by
  induction code with
  | nil => rw [rebuildAll, hasContinueAny]
  | cons i code ih =>
    obtain ⟨hi, hcode⟩ := List.forall_mem_cons.mp h
    rw [rebuildAll, hasContinueAny, ih hcode, Bool.or_false]
    cases hi <;> rfl

/-- Only the body of a loop continues it: the check in front of it breaks at most. -/
theorem continue_of_ahead {before : List Node}
    (hcheck : TestShape cond testList condSplit)
    (h : Path (.all (Instr.ahead (.loop cond testList stepList bodyList condSplit e))) before
      (.continues "")) : hasContinueAny (rebuildAll bodyList) = true := by
  have hsome := h.hasContinue_of_exit rfl
  rw [Execution.hasContinue_all, Instr.ahead, Execution.hasContinueAny_append,
    Bool.or_eq_true] at hsome
  refine hsome.resolve_left (fun hfront => ?_)
  cases hcheck with
  | none | kept _ => cases hfront
  | split hcode =>
    rw [if_pos rfl, Execution.Interpretation.rebuildAll_append] at hfront
    have hplain := no_continue_of_plain hcode
    simp [rebuildAll, Execution.hasContinueAny_append, hplain, hasContinueAny,
      Execution.hasContinue] at hfront

/-- The rounds of a loop whose step stands at the end of the body or in the head. -/
theorem StepRuns.of_places {tree init' cond' step body : Node} (es last : List Node)
    (inTree : rebuild (.loop cond testList stepList bodyList condSplit e) ∈ tree.everything)
    (hcheck : TestShape cond testList condSplit) (steps : rebuildAll stepList = es.map .stat)
    (hlast : (if e.isAbsent then rebuildAll stepList else []) = last.map .stat)
    (hpresent : ∀ e ∈ last, e.isAbsent = false)
    (hfalls : last ++ (if e.isAbsent then [] else [e]) = es)
    (hcontinued : (if e.isAbsent then [] else [e]) =
      if step.analysedCalls.isEmpty then es else []) :
    StepRuns tree (.forLoop init' cond' step body)
      (.loop cond testList stepList bodyList condSplit e) := by
  refine .loop rfl inTree steps (fun ran => ?_) (fun ran => ?_) (fun ran exit hround => ?_)
    (fun before => continue_of_ahead hcheck)
  · rw [round_loop hlast hpresent, if_pos rfl, hfalls]
    simp [Exit.goesOn]
  · rw [round_loop hlast hpresent, if_neg (by simp), hcontinued]
    simp [Exit.goesOn]
  · obtain ⟨-, -, on, -⟩ := (round_loop hlast hpresent).mp hround
    exact goesOn_iff.mp on

end

/-- The rounds of a loop that comes from one of the source. -/
theorem Walk.Translates.stepRuns {env : Surface} {n tree : Node} {i : Instr}
    (h : Walk.Translates env n i) (inTree : i.isLoop = true → rebuild i ∈ tree.everything) :
    StepRuns tree n i := by
  cases h with
  | branch => exact .branch
  | loop testDone stepDone bodyDone =>
    have hcheck := testDone.test_shape
    rcases stepDone.step_cases with ⟨hcalls, rfl, rfl, rfl⟩ | ⟨hcalls, rfl, es, hes, hpresent⟩ |
      ⟨hcalls, rfl, hv, rfl⟩
    · exact .of_places [] [] (inTree rfl) hcheck rfl rfl (by simp) rfl
        (by rw [hcalls]; rfl)
    · refine .of_places es es (inTree rfl) hcheck hes hes hpresent
        (List.append_nil es) ?_
      show [] = _
      rw [if_neg (by simpa using hcalls)]
    · refine .of_places [_] [] (inTree rfl) hcheck rfl ?_ (by simp) ?_ ?_
      · simp [hv]
      · simp [hv]
      · simp [hv, hcalls]

/-! ## §4. Whole units. -/

/-- In the tree of a unit, a round of a loop that falls through its body has run the test and the
    body, and then the step once.  One that continues has done so too, unless the step has a call:
    then it has not run the step, and the body has a continue that belongs to the loop.  There are
    no other rounds. -/
theorem transform_runs_steps (naming : Naming) (isAsync : String → Bool) (body : List Node)
    (t : Transformed) (h : (transform naming isAsync (.toplevel body)).1 = .ok t) :
    List.Forall₂ (StepRuns t.tree) (Node.controlsAll body) (Instr.controls t.program) := by
  have hmem : ∀ i ∈ Instr.controls t.program, i ∈ walkAll t.program :=
    fun i hi => (List.mem_filter.mp hi).1
  refine (List.forall₂_iff_zip.mpr ⟨(transform_translates h).length_eq, fun hzip => ?_⟩)
  have htrans := (List.forall₂_iff_zip.mp (transform_translates h)).2 hzip
  exact htrans.stepRuns (loop_mem_tree h (hmem _ (List.of_mem_zip hzip).2))

/-- A loop that checks a call, continues in one branch and has a call in its step:
    `for (; g(i); i = f(i)) { if (i) continue; h(i); }`. -/
theorem transform_runs_steps_of_continue :
    let call (f : String) : Node := .call (.name f) [.name "i"]
    let body : List Node := [.forLoop .absent (call "g") (.assign "" (.name "i") (call "f"))
      (.block [.ifElse (.name "i") (.continueTo "") .absent, .stat (call "h")])]
    ∃ t, (transform {} (fun _ => false) (.toplevel body)).1 = .ok t ∧
      List.Forall₂ (StepRuns t.tree) (Node.controlsAll body) (Instr.controls t.program) := by
  intro call body
  obtain ⟨t, ht⟩ : ∃ t, (transform {} (fun _ => false) (.toplevel body)).1 = .ok t :=
    exists_of_isOk (by decide +kernel)
  exact ⟨t, ht, transform_runs_steps {} (fun _ => false) body t ht⟩

/-- Whether a program is a loop that continues in a branch and has a call as its step. -/
def continuesToStep : List Instr → Bool
  | [.loop .absent [] [.leaf "call" (.stat (.call (.name "f") [])) false,
        .leaf "stat" (.stat (.assign "" (.name _) _)) false]
      [.branch (.name "c") [.leaf "continue" (.continueTo "") false] [] false
        ⟨false, false, false⟩ none none]
      false .absent] => true
  | _ => false

/-- The step of `for (;; f()) if (c) continue;` is a call and the capture of its value in a temp.
    In the tree both stand behind the branch, and a round that continues runs neither. -/
theorem transform_skips_step :
    let unit : Node := .toplevel [.forLoop .absent .absent (.call (.name "f") [])
      (.ifElse (.name "c") (.continueTo "") .absent)]
    ∃ t temp value, (transform {} (fun _ => false) unit).1 = .ok t ∧
      let es : List Node := [.call (.name "f") [], .assign "" (.name temp) value]
      let branch : Node := .ifElse (.name "c") (.block [.continueTo ""]) .absent
      let loop : Node := .forLoop .absent .absent .absent (.block (branch :: es.map .stat))
      t.program = [.loop .absent [] [.leaf "call" (.stat (.call (.name "f") [])) false,
          .set (.name temp) value]
        [.branch (.name "c") [.leaf "continue" (.continueTo "") false] [] false {} none none]
        false .absent] ∧
      t.tree = .toplevel [loop] ∧
      Round loop [.name "c"] (.continues "") ∧ ∀ before, [.name "c"] ≠ before ++ es := by
  intro unit
  obtain ⟨t, ht, hshape⟩ := exists_of_okAnd (r := (transform {} (fun _ => false) unit).1)
    (fun t => continuesToStep t.program) (by decide +kernel)
  unfold continuesToStep at hshape
  split at hshape
  case h_2 => cases hshape
  case h_1 temp value hprogram =>
  refine ⟨t, temp, value, ht, ?_⟩
  intro es branch loop
  have htree : t.tree = .toplevel [loop] := by
    rw [transform_tree ht, hprogram]
    rfl
  -- the condition holds, and the continue leaves the body
  have hcontinue : Path (.one [] (.block [.continueTo ""])) [] (.continues "") :=
    path_block.mpr (.stopped (.one (.continueTo "") .jump) (by simp))
  have hbranch : Path (.one [] branch) [.name "c"] (.continues "") :=
    .one (.yes _ _ _) (.both (.done rfl) hcontinue)
  have hbody : Path (.all (branch :: es.map .stat)) [.name "c"] (.continues "") :=
    .stopped hbranch (by simp)
  have hround : Round loop [.name "c"] (.continues "") :=
    .mk (path_block.mpr hbody) rfl .leftOut
  refine ⟨hprogram, htree, hround, fun before heq => ?_⟩
  have hlength := congrArg List.length heq
  simp [es] at hlength

end Program

end Resumable
