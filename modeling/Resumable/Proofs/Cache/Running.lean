/-
  Resumable.Proofs.Cache.Running — every form of a document runs the same code.

  What is run may be a document, the unit it reads as, or what was compiled of it, as a whole or
  only its code.  Documents go through the cache and the rest bypasses it.  A session compiles and
  runs whatever it likes, on one cache that the compilers share.

  The invariant is that of compiling alone: a run asks for the code of its input, and so leaves
  the cache as it is or as a request for the document does.

  Main results:
    * `Launch.run_cases`          — what one run does, to its runtime and to the cache;
    * `Session.play_plain`        — the steps of a session come to what they do without a cache;
    * `run_same_for_every_form`   — all forms of a document run alike, and what runs come to.
-/
import Resumable.Proofs.Cache.Transparency
import Resumable.Proofs.Document.Forms
import Resumable.Proofs.Walk.Dotted

namespace Resumable

open Program (Output)

variable {σ : Type}

/-! ## §1. Runs. -/

/-- The code of a document compiled without a cache. -/
def Compiler.codeAnew (c : Compiler) (document : Bytes) : Except Failure Code :=
  (c.compileDocument document).1.map (·.code)

/-- An input handed to the compiler of some settings, with a runtime or without. -/
structure Launch where
  settings : Settings
  compiler : Compiler
  made : Compiler.ofSettings settings = .ok compiler
  /-- Whether the compiler has the cache. -/
  isCached : Bool := true
  input : Compiler.Input
  runtime : Option Compiler.Runtime
  cancelled : Bool := false

namespace Launch

/-- The run of an input, with the cache. -/
def run (l : Launch) (cache : Cache.Access σ) (s : σ) : Compiler.Run × σ :=
  let access := if l.isCached then some cache else none
  let (run, _, s') := l.compiler.run access l.cancelled l.input l.runtime s
  (run, s')

/-- The request for a document of that compiler. -/
def ask (l : Launch) (document : Bytes) : Request where
  settings := l.settings
  compiler := l.compiler
  made := l.made
  document
  cancelled := l.cancelled

/-- What a run asks the cache for, if it gets that far. -/
def request? (l : Launch) : Option Request :=
  match l.input with
  | .document bytes => if l.isCached && l.runtime.isSome then some (l.ask bytes) else none
  | _ => none

/-- The code an input stands for, with no cache around. -/
def code (l : Launch) : Except Failure Code :=
  (l.compiler.codeOf (none : Option (Cache.Access Unit)) l.cancelled l.input ()).1

/-- The run of an input that stands for some code, or for none. -/
def due (l : Launch) (code : Except Failure Code) : Compiler.Run :=
  match l.runtime, code with
  | none, _ => { result := .error (.notInitialized .runtime "runtime") }
  | some _, .error e => { result := .error e }
  | some execute, .ok code =>
      if l.cancelled then { result := .error .canceled }
      else { handed := some code, result := execute code }

/-- The code that an input holds. -/
inductive Holds (l : Launch) : Code → Prop where
  | document {bytes : Bytes} {out : Output} : l.input = .document bytes →
      (l.compiler.compileDocument bytes).1 = .ok out → Holds l out.code
  | unit {tree : Node} {out : Output} : l.input = .unit tree →
      (l.compiler.compileUnit tree).1 = .ok out → Holds l out.code
  | output {out : Output} : l.input = .output (some out) → Holds l out.code
  | code {code : Code} : l.input = .code code → Holds l code

/-- Why an input holds no code. -/
inductive Unfit (l : Launch) : Failure → Prop where
  | other {value : Option Offender} : l.input = .other value →
      Unfit l (.only { phase := .runtime, category := .invalidInput, value
                       detail := "input must be a tree document, a tree, compiled output " ++
                         "or executable code" })
  | noOutput : l.input = .output none → Unfit l (.invalidInput .runtime "nil output")
  | document {bytes : Bytes} {e : Failure} : l.input = .document bytes →
      (l.compiler.compileDocument bytes).1 = .error e → Unfit l e
  | unit {tree : Node} {e : Failure} : l.input = .unit tree →
      (l.compiler.compileUnit tree).1 = .error e → Unfit l e

/-- What a run may come to: the first failure, with nothing handed over, or what the runtime makes
    of the code.  The runtime is asked for first, then the code, and then whether the request was
    cancelled. -/
inductive Outcome (l : Launch) : Compiler.Run → Prop where
  | noRuntime : l.runtime = none →
      Outcome l { handed := none, result := .error (.notInitialized .runtime "runtime") }
  | unfit {e : Failure} : l.runtime.isSome → l.Unfit e →
      Outcome l { handed := none, result := .error e }
  | cancelled {code : Code} : l.runtime.isSome → l.Holds code → l.cancelled = true →
      Outcome l { handed := none, result := .error .canceled }
  | executed {execute : Compiler.Runtime} {code : Code} : l.runtime = some execute →
      l.Holds code → l.cancelled = false →
      Outcome l { handed := some code, result := execute code }

/-- An input holds the code it stands for, and is unfit if it stands for none. -/
theorem code_cases (l : Launch) :
    (∃ code, l.code = .ok code ∧ l.Holds code) ∨ (∃ e, l.code = .error e ∧ l.Unfit e) := by
  unfold Launch.code
  cases hi : l.input with
  | document bytes =>
    cases hc : (l.compiler.compileDocument bytes).1 with
    | error e =>
      refine .inr ⟨e, ?_, .document hi hc⟩
      simp only [Compiler.codeOf, Compiler.compile, hc, Except.map]
    | ok out =>
      refine .inl ⟨out.code, ?_, .document hi hc⟩
      simp only [Compiler.codeOf, Compiler.compile, hc, Except.map]
  | unit tree =>
    cases hc : (l.compiler.compileUnit tree).1 with
    | error e =>
      refine .inr ⟨e, ?_, .unit hi hc⟩
      simp only [Compiler.codeOf, hc, Except.map]
    | ok out =>
      refine .inl ⟨out.code, ?_, .unit hi hc⟩
      simp only [Compiler.codeOf, hc, Except.map]
  | output out =>
    cases out with
    | none => exact .inr ⟨_, rfl, .noOutput hi⟩
    | some out => exact .inl ⟨_, rfl, .output hi⟩
  | code code => exact .inl ⟨_, rfl, .code hi⟩
  | other value => exact .inr ⟨_, rfl, .other hi⟩

/-- The run that is due is one of the outcomes. -/
theorem outcome_due (l : Launch) : l.Outcome (l.due l.code) := by
  unfold due
  cases hr : l.runtime with
  | none => exact .noRuntime hr
  | some execute =>
    have isSome : l.runtime.isSome := by simp [hr]
    rcases l.code_cases with ⟨code, hc, holds⟩ | ⟨e, hc, unfit⟩
    · simp only [hc]
      split
      next live => exact .cancelled isSome holds live
      next live => exact .executed hr holds (by simpa using live)
    · simp only [hc]
      exact .unfit isSome unfit

/-- The run of an input is due to the code that the cache left it with. -/
theorem run_eq (l : Launch) (cache : Cache.Access σ) (s : σ) {execute : Compiler.Runtime}
    (hr : l.runtime = some execute) {access : Option (Cache.Access σ)}
    (ha : access = if l.isCached then some cache else none) :
    l.run cache s =
      (l.due (l.compiler.codeOf access l.cancelled l.input s).1,
       (l.compiler.codeOf access l.cancelled l.input s).2.2) := by
  subst ha
  unfold run due Compiler.run
  simp only [hr]
  rcases l.compiler.codeOf _ l.cancelled l.input s with ⟨code, log, s'⟩
  cases code with
  | error e => rfl
  | ok code => cases l.cancelled <;> rfl

/-- Nothing is asked of the cache, and the run is the one due to the code without a cache; or what
    is run is a document that is requested of the cache. -/
theorem run_cases (l : Launch) (cache : Cache.Access σ) (s : σ) :
    (l.request? = none ∧ l.run cache s = (l.due l.code, s)) ∨
    (∃ bytes, l.input = .document bytes ∧ l.request? = some (l.ask bytes) ∧
      l.run cache s =
        (l.due (((l.ask bytes).serve cache s).1.result.map (·.code)),
         ((l.ask bytes).serve cache s).2)) := by
  cases hr : l.runtime with
  | none =>
    refine .inl ⟨?_, ?_⟩
    · unfold request?
      split <;> simp [hr]
    · simp only [run, due, Compiler.run, hr]
  | some execute =>
    rw [l.run_eq cache s hr rfl]
    unfold request? Launch.code
    -- only a document is looked up
    cases hi : l.input with
    | document bytes =>
      cases hcached : l.isCached with
      | false => exact .inl ⟨by simp, rfl⟩
      | true => exact .inr ⟨bytes, rfl, by simp [hr], rfl⟩
    | unit tree => exact .inl ⟨rfl, rfl⟩
    | output out => cases out <;> exact .inl ⟨rfl, rfl⟩
    | code code => exact .inl ⟨rfl, rfl⟩
    | other value => exact .inl ⟨rfl, rfl⟩

end Launch

/-- An answer that agrees with another has its code. -/
theorem Answer.AgreesWith.code {a : Answer} {fresh : Except Failure Output}
    (h : a.AgreesWith fresh) : a.result.map (·.code) = fresh.map (·.code) := by
  unfold Answer.AgreesWith at h
  split at h
  next =>
    obtain ⟨out, hf, ha⟩ := h
    rw [hf, ha]
    rfl
  next => rw [h]

/-! ## §2. Sessions. -/

namespace Session

/-- What compilers do in a session. -/
inductive Step where
  | compile (r : Request)
  | run (l : Launch)

/-- What a step came to. -/
inductive Result where
  | compiled (a : Answer)
  | ran (run : Compiler.Run)

/-- The request a step makes of the cache. -/
def Step.request? : Step → Option Request
  | .compile r => some r
  | .run l => l.request?

/-- One step, on the cache. -/
def Step.play (cache : Cache.Access σ) : Step → σ → Result × σ
  | .compile r, s => (.compiled (r.serve cache s).1, (r.serve cache s).2)
  | .run l, s => (.ran (l.run cache s).1, (l.run cache s).2)

/-- All steps one after the other, on the same cache. -/
def play (cache : Cache.Access σ) : List Step → σ → List Result
  | [], _ => []
  | step :: rest, s => (step.play cache s).1 :: play cache rest (step.play cache s).2

/-- What was compiled of a document: without the cache, or by a step of the session. -/
def Compiled (history : List (Step × Result)) (c : Compiler) (document : Bytes) (out : Output) :
    Prop :=
  (c.compileDocument document).1 = .ok out ∨
  ∃ r a, (.compile r, .compiled a) ∈ history ∧ r.compiler = c ∧ r.document = document ∧
    a.result = .ok out

/-- The forms of a document: itself, the unit it reads as, and what was compiled of it or just the
    code of that. -/
inductive Form (history : List (Step × Result)) (c : Compiler) (document : Bytes) :
    Compiler.Input → Prop where
  | document : Form history c document (.document document)
  | unit {tree : Node} : Node.parseUnit document = .ok tree →
      Form history c document (.unit tree)
  | output {out : Output} : Compiled history c document out →
      Form history c document (.output (some out))
  | code {out : Output} : Compiled history c document out →
      Form history c document (.code out.code)

/-- What a step must come to without a cache. -/
def Step.Plain : Step → Result → Prop
  | .compile r, .compiled a => a.AgreesWith r.fresh
  | .run l, .ran got => got = l.due l.code
  | _, _ => False

/-- What a step must come to in a session: all forms of a document run alike. -/
def Step.Right (history : List (Step × Result)) : Step → Result → Prop
  | .compile r, .compiled a => a.AgreesWith r.fresh
  | .run l, .ran got =>
      l.Outcome got ∧
      ∀ document, Form history l.compiler document l.input →
        got = l.due (l.compiler.codeAnew document)
  | _, _ => False

/-! ## §3. What runs come to. -/

section Playing

variable {cache : Cache.Access σ} {start : σ} {asked : List Request}

/-- One step comes to what it must, and keeps the cache sound. -/
theorem Step.play_plain (faithful : cache.Faithful start)
    (apart : Digest.NoCollision (asked.flatMap Request.digested))
    (short : ∀ r ∈ asked, r.settings.essence.length < 2 ^ 64)
    {given : List (String × Cache.Entry)} {s : σ} (sound : Cache.Sound cache start asked given s)
    {step : Step} (hstep : ∀ r ∈ step.request?, r ∈ asked) :
    step.Plain (step.play cache s).1 ∧
      ∃ given', Cache.Sound cache start asked given' (step.play cache s).2 := by
  cases step with
  | compile r => exact sound.serve faithful apart short (hstep r rfl)
  | run l =>
    rcases l.run_cases cache s with ⟨-, h⟩ | ⟨bytes, hi, asks, h⟩
    · exact ⟨congrArg Prod.fst h, given, congrArg Prod.snd h ▸ sound⟩
    · obtain ⟨agrees, given', sound'⟩ := sound.serve faithful apart short (hstep _ asks)
      refine ⟨?_, given', congrArg Prod.snd h ▸ sound'⟩
      have same : l.code = (l.ask bytes).fresh.map (·.code) := by
        unfold Launch.code
        rw [hi]
        rfl
      change (l.run cache s).1 = l.due l.code
      rw [h, agrees.code, same]

/-- So do all steps of a session. -/
theorem play_plain (faithful : cache.Faithful start)
    (apart : Digest.NoCollision (asked.flatMap Request.digested))
    (short : ∀ r ∈ asked, r.settings.essence.length < 2 ^ 64)
    {given : List (String × Cache.Entry)} {s : σ} (sound : Cache.Sound cache start asked given s)
    {steps : List Step} (hsteps : ∀ r ∈ steps.filterMap Step.request?, r ∈ asked) :
    List.Forall₂ Step.Plain steps (play cache steps s) := by
  induction steps generalizing given s with
  | nil => exact .nil
  | cons step rest ih =>
    have first : ∀ r ∈ step.request?, r ∈ asked := by
      intro r hr
      exact hsteps r (List.mem_filterMap.2 ⟨step, List.mem_cons_self, hr⟩)
    obtain ⟨plain, given', sound'⟩ := Step.play_plain faithful apart short sound first
    refine .cons plain (ih sound' ?_)
    intro r hr
    obtain ⟨later, mem, asks⟩ := List.mem_filterMap.1 hr
    exact hsteps r (List.mem_filterMap.2 ⟨later, List.mem_cons_of_mem _ mem, asks⟩)

end Playing

/-- What was compiled of a document in a session has the code it has without a cache. -/
theorem Compiled.code {steps : List Step} {results : List Result}
    (plain : List.Forall₂ Step.Plain steps results) {c : Compiler} {document : Bytes}
    {out : Output} (h : Compiled (steps.zip results) c document out) :
    c.codeAnew document = .ok out.code := by
  unfold Compiler.codeAnew
  rcases h with h | ⟨r, a, mem, rfl, rfl, h⟩
  · rw [h]
    rfl
  · have agrees : a.AgreesWith r.fresh := (List.forall₂_iff_zip.1 plain).2 mem
    rw [← r.fresh_eq, ← agrees.code, h]
    rfl

/-- All forms of a document stand for the same code. -/
theorem Form.code_eq {steps : List Step} {results : List Result}
    (plain : List.Forall₂ Step.Plain steps results) {l : Launch} {document : Bytes}
    (form : Form (steps.zip results) l.compiler document l.input) :
    l.code = l.compiler.codeAnew document := by
  have h : ∀ input, Form (steps.zip results) l.compiler document input → l.input = input →
      l.code = l.compiler.codeAnew document := by
    intro input form hi
    unfold Launch.code
    rw [hi]
    cases form with
    | document => rfl
    | @unit tree parsed =>
      -- compiling a document reads it and compiles the unit
      have compiles : l.compiler.compileDocument document = l.compiler.compileUnit tree := by
        unfold Compiler.compileDocument
        rw [parsed]
      unfold Compiler.codeAnew
      rw [compiles]
      rfl
    | output compiled => exact (compiled.code plain).symm
    | code compiled => exact (compiled.code plain).symm
  exact h _ form rfl

end Session

/-- In a session on a faithful cache, every run comes to the first failure there is, with nothing
    handed to the runtime, or else to one call of the runtime on the code that its input holds; and
    what is run of a document, in any of its forms, comes to what the code of that document without
    a cache must come to.  Digests and settings are as for compiling alone. -/
theorem run_same_for_every_form (cache : Cache.Access σ) (start : σ)
    (faithful : cache.Faithful start) (steps : List Session.Step)
    (apart : Digest.NoCollision
      ((steps.filterMap Session.Step.request?).flatMap Request.digested))
    (short : ∀ r ∈ steps.filterMap Session.Step.request?,
      r.settings.essence.length < 2 ^ 64) :
    let results := Session.play cache steps start
    List.Forall₂ (Session.Step.Right (steps.zip results)) steps results := by
  intro results
  have sound : Cache.Sound cache start (steps.filterMap Session.Step.request?) [] start := by
    refine ⟨.start, ?_⟩
    intro key e mem
    cases mem
  have plain : List.Forall₂ Session.Step.Plain steps results :=
    Session.play_plain faithful apart short sound fun r mem => mem
  refine List.Forall₂.imp ?_ plain
  intro step result h
  cases step with
  | compile r =>
    cases result with
    | compiled a => exact h
    | ran got => exact h.elim
  | run l =>
    cases result with
    | compiled a => exact h.elim
    | ran got =>
      cases (h : got = l.due l.code)
      exact ⟨l.outcome_due, fun document form => by rw [form.code_eq plain]⟩

/-- A run of an input by the compiler of no settings, with a runtime that takes any code. -/
def Launch.plain (input : Compiler.Input) (cancelled : Bool) : Launch where
  settings := { container := "" }
  compiler := _
  made := rfl
  input
  runtime := some fun _ => .ok ()
  cancelled

/-- The unit `f();` in a session: its document compiled, run from memory and cancelled; the unit it
    reads as, what was compiled of it, and the code of that; and no output at all. -/
theorem run_same_for_every_form_of_call :
    let document := Text.bytesOf "[toplevel, [[stat, [call, [name, f], []]]]]"
    let run (input : Compiler.Input) : Launch := .plain input false
    ∃ tree out, Node.parseUnit document = .ok tree ∧
      ((run (.document document)).compiler.compileDocument document).1 = .ok out ∧
      out.code.count = 2 ∧
      let steps := [.compile ((run (.document document)).ask document),
        .run (run (.document document)), .run (.plain (.document document) true),
        .run (run (.unit tree)), .run (run (.output (some out))), .run (run (.code out.code)),
        .run (run (.output none))]
      let results := Session.play Cache.memory steps []
      Digest.NoCollision ((steps.filterMap Session.Step.request?).flatMap Request.digested) ∧
      List.Forall₂ (Session.Step.Right (steps.zip results)) steps results := by
  intro document run
  let compiler := (run (.document document)).compiler
  let tree : Node := .toplevel [.stat (.call (.name "f") [])]
  obtain ⟨doc, hdoc, hroot⟩ : ∃ doc, Yaml.Document.parse document = .ok (some doc) ∧
      tree.form.fits doc.root = true :=
    Yaml.Document.exists_of_parses (by decide +kernel)
  have hparse : Node.parse document = .ok tree := by
    have hdecode : doc.decode [] doc.root = some (.ok tree) :=
      Tree.complete_yields doc tree (by decide +kernel) _ [] hroot
    simp only [Node.parse, hdoc, Node.ofDocument, hdecode]
  have htree : Node.parseUnit document = .ok tree := Node.parseUnit_of_parse hparse rfl
  obtain ⟨out, hout, hcount⟩ : ∃ out, (compiler.compileUnit tree).1 = .ok out ∧
      (out.code.count == 2) = true := by
    refine exists_of_okAnd _ ?_
    show okAnd (Program.compile { naming := {}, isAsync := compiler.isAsync } tree).1 _ = true
    simp only [Program.compile, Program.transform, Program.transformBody, Program.walkUnit,
      Program.Naming.dotted_eq Program.Naming.parts_usual]
    decide +kernel
  have hdocument : (compiler.compileDocument document).1 = .ok out := by
    rw [Compiler.compileDocument, htree]
    exact hout
  refine ⟨tree, out, htree, hdocument, beq_iff_eq.mp hcount, ?_⟩
  intro steps results
  have asks : steps.filterMap Session.Step.request? =
      [(run (.document document)).ask document, (run (.document document)).ask document,
        (Launch.plain (.document document) true).ask document] := rfl
  have apart : Digest.NoCollision
      ((steps.filterMap Session.Step.request?).flatMap Request.digested) := by
    simp only [asks, List.flatMap_cons, List.flatMap_nil, Request.digested, run, Launch.ask,
      Launch.plain, Settings.fingerprint, Settings.fingerprintBy, Settings.essence_container]
    decide +kernel
  refine ⟨apart, run_same_for_every_form Cache.memory [] Cache.memory_faithful steps apart ?_⟩
  simp only [asks, List.forall_mem_cons, run, Launch.ask, Launch.plain,
    Settings.essence_container]
  decide +kernel

end Resumable
