/-
  Resumable.Proofs.Execution.Paths — the paths that lead through statements.

  A path through a statement says what is evaluated and done on it, in order, and how it ends:
  behind the statement, or with a jump that is still on its way.  Conditions may come out either
  way and everything that is evaluated may throw, so the paths are all that the control flow of
  the language admits.

  What a statement does is put together from few parts (`Stretch`), and `Way` says how.  So what
  holds of all paths is proved by induction over the parts, and the statements are the case of one
  rule.

  Main statements:
    * `path_append`               — a path through a list leads through a front part first;
    * `Path.hasContinue_of_exit`    — a path ends with a continue only where there is one.
-/
import Resumable.Tree.Node

namespace Resumable.Execution

/-! ## §1. How paths end. -/

/-- How a path ends. -/
inductive Exit where
  /-- Behind what it leads through. -/
  | falls
  /-- With a break, to a label if that is not empty. -/
  | breaks (label : String)
  /-- With a continue. -/
  | continues (label : String)
  | returns
  | throws
  deriving DecidableEq, Repr

namespace Exit

/-- Whether a loop with some labels goes on when its body ends so. -/
def goesOn (labels : List String) : Exit → Bool
  | falls => true
  | continues label => label == "" || labels.contains label
  | _ => false

/-- How a statement ends that breaks to a label lead out of; without a label, out of a loop or a
    switch. -/
def past (label : String) : Exit → Exit
  | breaks l => if l = label then falls else breaks l
  | e => e

end Exit

/-! ## §2. Paths. -/

/-- A loop: its labels, whether it may end at its test, and what it evaluates. -/
structure Cycle where
  labels : List String
  mayEnd : Bool
  test : Node
  step : Node
  body : Node

/-- What a path may lead through. -/
inductive Stretch where
  | skip
  /-- Something evaluated or done at once, unless it was left out. -/
  | value (n : Node)
  /-- A statement that has some labels. -/
  | one (labels : List String) (n : Node)
  /-- One stretch after the other. -/
  | both (p q : Stretch)
  | jump (e : Exit)
  /-- A stretch that breaks to a label lead out of. -/
  | exiting (label : String) (p : Stretch)
  /-- A stretch, and another one where it throws. -/
  | attempt (p q : Stretch)
  /-- A stretch, and another one however it ends. -/
  | lastly (p q : Stretch)
  /-- A loop from its test on. -/
  | rounds (c : Cycle)
  /-- A loop from its body on. -/
  | turn (c : Cycle)

namespace Stretch

/-- Statements one after the other. -/
def all : List Node → Stretch
  | [] => skip
  | n :: ns => both (one [] n) (all ns)

/-- Values one after the other. -/
def values : List Node → Stretch
  | [] => skip
  | n :: ns => both (value n) (values ns)

/-- The block of a try statement, and what its catch clause does about it. -/
def guarded (body : List Node) : Option (String × List Node) → Stretch
  | none => all body
  | some handler => attempt (all body) (all handler.2)

/-- A stretch with a finally clause. -/
def finished (p : Stretch) : Option (List Node) → Stretch
  | none => p
  | some finalizer => lastly p (all finalizer)

end Stretch

/-- Where a switch may be entered: the tests evaluated by then, and the clauses from there on. -/
inductive Enters (cases : List (Node × List Node)) : List Node → List (Node × List Node) → Prop
  | matched {pre post : List (Node × List Node)} {c : Node × List Node}
      (h : cases = pre ++ c :: post) (test : c.1.isAbsent = false) :
      Enters cases ((pre ++ [c]).map (·.1)) (c :: post)
  | default {pre post : List (Node × List Node)} {c : Node × List Node}
      (h : cases = pre ++ c :: post) (test : c.1.isAbsent = true) :
      Enters cases (cases.map (·.1)) (c :: post)
  | missed (h : ∀ c ∈ cases, c.1.isAbsent = false) : Enters cases (cases.map (·.1)) []

/-- Whether a statement is done at once. -/
def isSimple : Node → Bool
  | .var _ | .const _ | .debugger => true
  | n => n.isExpression

/-- What a statement that has some labels comes down to. -/
inductive Way (labels : List String) : Node → Stretch → Prop
  | absent : Way labels .absent .skip
  | simple {n : Node} (h : isSimple n = true) : Way labels n (.value n)
  | stat (e : Node) : Way labels (.stat e) (.value e)
  | defun (name : String) (params : List String) (body : List Node) :
      Way labels (.defun name params body) .skip
  | block (ns : List Node) : Way labels (.block ns) (.all ns)
  | splice (ns : List Node) : Way labels (.splice ns) (.all ns)
  | toplevel (ns : List Node) : Way labels (.toplevel ns) (.all ns)
  | yes (c yes no : Node) : Way labels (.ifElse c yes no) (.both (.value c) (.one [] yes))
  | no (c yes no : Node) : Way labels (.ifElse c yes no) (.both (.value c) (.one [] no))
  | forLoop (init test step body : Node) :
      Way labels (.forLoop init test step body)
        (.both (.one [] init) (.rounds ⟨labels, !test.isAbsent, test, step, body⟩))
  | forIn (init object body : Node) :
      Way labels (.forIn init object body)
        (.both (.value object) (.rounds ⟨labels, true, .absent, .absent, body⟩))
  | whileLoop (test body : Node) :
      Way labels (.whileLoop test body) (.rounds ⟨labels, true, test, .absent, body⟩)
  | doLoop (test body : Node) :
      Way labels (.doLoop test body) (.turn ⟨labels, true, test, .absent, body⟩)
  | breakTo (label : String) : Way labels (.breakTo label) (.jump (.breaks label))
  | continueTo (label : String) : Way labels (.continueTo label) (.jump (.continues label))
  | label (label : String) (body : Node) :
      Way labels (.label label body) (.exiting label (.one (label :: labels) body))
  | ret (v : Node) : Way labels (.ret v) (.both (.value v) (.jump .returns))
  | throw (v : Node) : Way labels (.throw v) (.both (.value v) (.jump .throws))
  | tryCatch (body : List Node) (handler : Option (String × List Node))
      (finalizer : Option (List Node)) :
      Way labels (.tryCatch body handler finalizer)
        ((Stretch.guarded body handler).finished finalizer)
  | switch {cases post : List (Node × List Node)} {tests : List Node} (disc : Node)
      (h : Enters cases tests post) :
      Way labels (.switch disc cases)
        (.both (.values (disc :: tests)) (.exiting "" (.all (post.flatMap (·.2)))))
  | withObject (object body : Node) :
      Way labels (.withObject object body) (.both (.value object) (.one [] body))

/-- What is evaluated and done on a path, and how it ends. -/
inductive Path : Stretch → List Node → Exit → Prop
  | skip : Path .skip [] .falls
  | leftOut : Path (.value .absent) [] .falls
  | done {n : Node} (h : n.isAbsent = false) : Path (.value n) [n] .falls
  | thrown {n : Node} (h : n.isAbsent = false) : Path (.value n) [n] .throws
  | one {labels : List String} {n : Node} {p : Stretch} {ran : List Node} {e : Exit}
      (way : Way labels n p) (rest : Path p ran e) : Path (.one labels n) ran e
  | both {p q : Stretch} {ran ran' : List Node} {e : Exit}
      (first : Path p ran .falls) (rest : Path q ran' e) : Path (.both p q) (ran ++ ran') e
  | stopped {p q : Stretch} {ran : List Node} {e : Exit}
      (first : Path p ran e) (he : e ≠ .falls) : Path (.both p q) ran e
  | jump {e : Exit} : Path (.jump e) [] e
  | exiting {label : String} {p : Stretch} {ran : List Node} {e : Exit} (rest : Path p ran e) :
      Path (.exiting label p) ran (e.past label)
  | uncaught {p q : Stretch} {ran : List Node} {e : Exit} (first : Path p ran e)
      (he : e ≠ .throws) : Path (.attempt p q) ran e
  | caught {p q : Stretch} {ran ran' : List Node} {e : Exit} (first : Path p ran .throws)
      (rest : Path q ran' e) : Path (.attempt p q) (ran ++ ran') e
  | lastly {p q : Stretch} {ran ran' : List Node} {e : Exit} (first : Path p ran e)
      (rest : Path q ran' .falls) : Path (.lastly p q) (ran ++ ran') e
  /-- A finally clause that jumps forgets how the stretch ended. -/
  | replaced {p q : Stretch} {ran ran' : List Node} {e e' : Exit} (first : Path p ran e)
      (rest : Path q ran' e') (he : e' ≠ .falls) : Path (.lastly p q) (ran ++ ran') e'
  | ended {c : Cycle} {ran : List Node} (h : c.mayEnd = true)
      (test : Path (.value c.test) ran .falls) : Path (.rounds c) ran .falls
  | entered {c : Cycle} {ran : List Node} {e : Exit}
      (rest : Path (.both (.value c.test) (.turn c)) ran e) : Path (.rounds c) ran e
  | left {c : Cycle} {ran : List Node} {e : Exit} (body : Path (.one [] c.body) ran e)
      (he : e.goesOn c.labels = false) : Path (.turn c) ran (e.past "")
  | again {c : Cycle} {ran ran' : List Node} {e e' : Exit} (body : Path (.one [] c.body) ran e)
      (he : e.goesOn c.labels = true)
      (rest : Path (.both (.value c.step) (.rounds c)) ran' e') : Path (.turn c) (ran ++ ran') e'

/-- The paths through one round of a loop, from its body on to where it goes on with the next one,
    by how the body ends. -/
inductive Round : Node → List Node → Exit → Prop
  | mk {init test step body : Node} {ran ran' : List Node} {e : Exit}
      (inside : Path (.one [] body) ran e) (on : e.goesOn [] = true)
      (stepped : Path (.value step) ran' .falls) :
      Round (.forLoop init test step body) (ran ++ ran') e

/-! ## §3. Lists of statements. -/

section

variable {p q : Stretch} {ran : List Node} {e : Exit}

theorem path_skip : Path .skip ran e ↔ ran = [] ∧ e = .falls := by
  refine ⟨fun h => ?_, fun ⟨hran, he⟩ => hran ▸ he ▸ .skip⟩
  cases h
  exact ⟨rfl, rfl⟩

theorem path_both : Path (.both p q) ran e ↔
    (∃ before after, Path p before .falls ∧ Path q after e ∧ ran = before ++ after) ∨
      (Path p ran e ∧ e ≠ .falls) := by
  refine ⟨fun h => ?_, fun h => ?_⟩
  · cases h with
    | both first rest => exact .inl ⟨_, _, first, rest, rfl⟩
    | stopped first he => exact .inr ⟨first, he⟩
  · rcases h with ⟨before, after, first, rest, rfl⟩ | ⟨first, he⟩
    · exact .both first rest
    · exact .stopped first he

/-- A path through a list of statements leads through a front part, and then, unless it ends there,
    through the rest. -/
theorem path_append {ns ms : List Node} {ran : List Node} {e : Exit} :
    Path (.all (ns ++ ms)) ran e ↔
      (∃ before after, Path (.all ns) before .falls ∧ Path (.all ms) after e ∧
        ran = before ++ after) ∨
      (Path (.all ns) ran e ∧ e ≠ .falls) := by
  induction ns generalizing ran with
  | nil =>
    simp only [List.nil_append, Stretch.all, path_skip]
    refine ⟨fun h => .inl ⟨[], ran, ⟨rfl, trivial⟩, h, rfl⟩, ?_⟩
    rintro (⟨before, after, ⟨rfl, -⟩, h, rfl⟩ | ⟨⟨-, rfl⟩, he⟩)
    · exact h
    · exact absurd rfl he
  | cons n ns ih =>
    simp only [List.cons_append, Stretch.all, path_both, ih]
    constructor
    · rintro (⟨b, a, hn, ⟨b', a', hns, hms, rfl⟩ | ⟨hns, he⟩, rfl⟩ | ⟨hn, he⟩)
      · refine .inl ⟨b ++ b', a', .inl ⟨b, b', hn, hns, rfl⟩, hms, ?_⟩
        rw [List.append_assoc]
      · exact .inr ⟨.inl ⟨b, a, hn, hns, rfl⟩, he⟩
      · exact .inr ⟨.inr ⟨hn, he⟩, he⟩
    · rintro (⟨before, after, ⟨b, a, hn, hns, rfl⟩ | ⟨-, he⟩, hms, rfl⟩ |
        ⟨⟨b, a, hn, hns, rfl⟩ | ⟨hn, he⟩, he'⟩)
      · refine .inl ⟨b, a ++ after, hn, .inl ⟨a, after, hns, hms, rfl⟩, ?_⟩
        rw [List.append_assoc]
      · exact absurd rfl he
      · exact .inl ⟨b, a, hn, .inr ⟨hns, he'⟩, rfl⟩
      · exact .inr ⟨hn, he⟩

/-- What is evaluated falls through or throws. -/
theorem Path.value_exit {n : Node} (h : Path (.value n) ran e) : e = .falls ∨ e = .throws := by
  cases h with
  | leftOut | done _ => exact .inl rfl
  | thrown _ => exact .inr rfl

theorem path_value_falls {n : Node} :
    Path (.value n) ran .falls ↔ ran = if n.isAbsent then [] else [n] := by
  refine ⟨fun h => ?_, ?_⟩
  · cases h with
    | leftOut => rfl
    | done h => rw [if_neg (by simp [h])]
  · rintro rfl
    cases hn : n.isAbsent with
    | false => exact .done hn
    | true =>
      cases n <;> cases hn
      exact .leftOut

theorem path_stat {e' : Node} {labels : List String} :
    Path (.one labels (.stat e')) ran e ↔ Path (.value e') ran e := by
  refine ⟨fun h => ?_, .one (.stat e')⟩
  cases h with
  | one way rest =>
    cases way with
    | simple h => cases h
    | stat => exact rest

theorem path_block {ns : List Node} {labels : List String} :
    Path (.one labels (.block ns)) ran e ↔ Path (.all ns) ran e := by
  refine ⟨fun h => ?_, .one (.block ns)⟩
  cases h with
  | one way rest =>
    cases way with
    | simple h => cases h
    | block => exact rest

/-- A list of expression statements falls through or throws. -/
theorem Path.stats_exit {es : List Node} (h : Path (.all (es.map .stat)) ran e) :
    e = .falls ∨ e = .throws := by
  induction es generalizing ran with
  | nil => exact .inl (path_skip.1 h).2
  | cons e' es ih =>
    rcases path_both.1 h with ⟨-, after, -, h, -⟩ | ⟨h, -⟩
    · exact ih h
    · exact (path_stat.1 h).value_exit

end

/-! ## §4. Where continues are. -/

mutual

/-- Whether a statement has a continue without label that leads out of it. -/
def hasContinue : Node → Bool
  | .continueTo label => label == ""
  | .block ns | .splice ns | .toplevel ns => hasContinueAny ns
  | .ifElse _ yes no => hasContinue yes || hasContinue no
  | .forLoop init _ _ _ => hasContinue init
  | .label _ body | .withObject _ body => hasContinue body
  | .tryCatch body handler finalizer =>
      hasContinueAny body || hasContinueIn handler || hasContinueLast finalizer
  | .switch _ cases => hasContinueCases cases
  | _ => false

/-- Whether a list of statements has one. -/
def hasContinueAny : List Node → Bool
  | [] => false
  | n :: ns => hasContinue n || hasContinueAny ns

/-- Whether a catch clause has one. -/
def hasContinueIn : Option (String × List Node) → Bool
  | none => false
  | some (_, ns) => hasContinueAny ns

/-- Whether a finally clause has one. -/
def hasContinueLast : Option (List Node) → Bool
  | none => false
  | some ns => hasContinueAny ns

/-- Whether one of the clauses of a switch has one. -/
def hasContinueCases : List (Node × List Node) → Bool
  | [] => false
  | (_, ns) :: cs => hasContinueAny ns || hasContinueCases cs

end

theorem hasContinueAny_append (ns ms : List Node) :
    hasContinueAny (ns ++ ms) = (hasContinueAny ns || hasContinueAny ms) := by
  induction ns with
  | nil => rw [List.nil_append, hasContinueAny, Bool.false_or]
  | cons n ns ih => rw [List.cons_append, hasContinueAny, hasContinueAny, ih, Bool.or_assoc]

theorem hasContinueCases_append (xs ys : List (Node × List Node)) :
    hasContinueCases (xs ++ ys) = (hasContinueCases xs || hasContinueCases ys) := by
  induction xs with
  | nil => rw [List.nil_append, hasContinueCases, Bool.false_or]
  | cons x xs ih => rw [List.cons_append, hasContinueCases, hasContinueCases, ih, Bool.or_assoc]

theorem hasContinueCases_eq (cases : List (Node × List Node)) :
    hasContinueCases cases = hasContinueAny (cases.flatMap (·.2)) := by
  induction cases with
  | nil => rw [List.flatMap_nil, hasContinueCases, hasContinueAny]
  | cons c cs ih => rw [List.flatMap_cons, hasContinueCases, hasContinueAny_append, ih]

/-- Whether a path may leave a stretch with a continue without label. -/
def Stretch.hasContinue : Stretch → Bool
  | skip | value _ | rounds _ | turn _ => false
  | one _ n => Execution.hasContinue n
  | both p q | attempt p q | lastly p q => p.hasContinue || q.hasContinue
  | jump e => e == .continues ""
  | .exiting _ p => p.hasContinue

theorem hasContinue_all (ns : List Node) : (Stretch.all ns).hasContinue = hasContinueAny ns := by
  induction ns with
  | nil => rw [Stretch.all, Stretch.hasContinue, hasContinueAny]
  | cons n ns ih => rw [Stretch.all, Stretch.hasContinue, Stretch.hasContinue, ih, hasContinueAny]

theorem hasContinue_values (ns : List Node) : (Stretch.values ns).hasContinue = false := by
  induction ns with
  | nil => rfl
  | cons n ns ih => rw [Stretch.values, Stretch.hasContinue, Stretch.hasContinue, ih, Bool.or_self]

theorem hasContinueCases_of_enters {cases post : List (Node × List Node)} {tests : List Node}
    (h : Enters cases tests post) :
    hasContinueCases post = true → hasContinueCases cases = true := by
  intro hp
  cases h with
  | matched h _ | default h _ => rw [h, hasContinueCases_append, hp, Bool.or_true]
  | missed _ => simp [hasContinueCases] at hp

/-- What a statement comes down to has no continue that the statement does not have. -/
theorem hasContinue_of_way {labels : List String} {n : Node} {p : Stretch} (h : Way labels n p)
    (hp : p.hasContinue = true) : hasContinue n = true := by
  cases h with
  | absent | simple _ | stat _ | defun _ _ _ | whileLoop _ _ | doLoop _ _ => cases hp
  | block ns | splice ns | toplevel ns =>
    rw [hasContinue_all] at hp
    rw [hasContinue, hp]
  | yes c yes no | no c yes no =>
    rw [Stretch.hasContinue, Stretch.hasContinue, Stretch.hasContinue, Bool.false_or] at hp
    simp [hasContinue, hp]
  | forLoop init test step body =>
    simpa [Stretch.hasContinue, hasContinue] using hp
  | forIn init object body => cases hp
  | breakTo label => simp [Stretch.hasContinue] at hp
  | continueTo label => simpa [Stretch.hasContinue, hasContinue] using hp
  | label label body => simpa [Stretch.hasContinue, hasContinue] using hp
  | ret v | throw v => simp [Stretch.hasContinue] at hp
  | tryCatch body handler finalizer =>
    cases handler <;> cases finalizer <;>
      simpa [Stretch.guarded, Stretch.finished, Stretch.hasContinue, hasContinue_all,
        hasContinue, hasContinueIn, hasContinueLast] using hp
  | switch disc enters =>
    simp only [Stretch.hasContinue, hasContinue_values, hasContinue_all, Bool.false_or] at hp
    rw [hasContinue]
    exact hasContinueCases_of_enters enters (by rw [hasContinueCases_eq, hp])
  | withObject object body => simpa [Stretch.hasContinue, hasContinue] using hp

theorem Exit.eq_of_past {label : String} {e : Exit} (h : e.past label = .continues "") :
    e = .continues "" := by
  cases e with
  | breaks l =>
    rw [past] at h
    split at h <;> cases h
  | _ => exact h

/-- A path ends with a continue without label only where there is one. -/
theorem Path.hasContinue_of_exit {p : Stretch} {ran : List Node} {e : Exit} (h : Path p ran e) :
    e = .continues "" → p.hasContinue = true := by
  induction h with
  | skip | leftOut | done _ | thrown _ | ended _ _ _ => exact nofun
  | one way _ ih => exact fun he => hasContinue_of_way way (ih he)
  | both _ _ _ ih | caught _ _ _ ih | replaced _ _ _ _ ih =>
    intro he
    simp [Stretch.hasContinue, ih he]
  | stopped _ _ ih | uncaught _ _ ih | lastly _ _ ih _ =>
    intro he
    simp [Stretch.hasContinue, ih he]
  | jump => exact fun he => by simp [Stretch.hasContinue, he]
  | exiting _ ih => exact fun he => ih (Exit.eq_of_past he)
  | entered _ ih =>
    intro he
    have := ih he
    simp [Stretch.hasContinue] at this
  | left _ he _ =>
    -- the loop goes on with its own continues
    intro heq
    rw [Exit.eq_of_past heq] at he
    simp [Exit.goesOn] at he
  | again _ _ _ _ ih =>
    intro he
    have := ih he
    simp [Stretch.hasContinue] at this

end Resumable.Execution
