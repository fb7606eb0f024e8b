/-
  Resumable.Proofs.Meaning.Values — what stands for a value has it.

  A walk leaves instructions and, for every expression, something that stands for its value.  After
  the instructions were run, evaluating what stands for a value gives the value, and goes on giving
  it as long as the places it reads are left alone (`Steady`): the names of the source and the
  temps made so far.

  Main statement: `emits_standsFor`.
-/
import Resumable.Proofs.Meaning.Operands
import Resumable.Proofs.Walk.Growth

namespace Resumable.Meaning

open Program (Naming Scope Surface Instr)
open Program.Walk

/-! ## §1. Names. -/

/-- The temp with a number. -/
def temp (naming : Naming) (k : Nat) : String := naming.stem ++ toString k

/-- The places that a program uses for itself do not get in each other's way: neither the container
    nor the root of the slot is one of its temps, and of the slot and the place of a declared name
    none lies inside the other. -/
structure Apart (naming : Naming) (locals : List String) (temps : Nat) : Prop where
  container : ∀ k < temps, naming.container ≠ temp naming k
  root : ∀ k < temps, (slot naming).head? ≠ some (temp naming k)
  field : ∀ x ∈ locals, ¬ slot naming <+: [naming.container, x] ∧
    ¬ [naming.container, x] <+: slot naming

/-- A name that a program does not use for itself. -/
structure Free (naming : Naming) (x : String) : Prop where
  stem : ¬ naming.stem.toList <+: x.toList
  container : x ≠ naming.container
  root : (slot naming).head? ≠ some x

/-- The place where a program keeps a name of the source. -/
def cell (naming : Naming) (locals : List String) (x : String) : List String :=
  if x ∈ locals then [naming.container, x] else [x]

section

variable {naming : Naming} {locals : List String} {temps j k : Nat} {x y : String}

theorem slot_cons (naming : Naming) : ∃ root fields, slot naming = root :: fields :=
  Naming.parts_cons naming.returnValue

/-- A name is no place around the slot if it is not the root. -/
theorem not_prefix_slot (h : (slot naming).head? ≠ some x) : ¬ [x] <+: slot naming := by
  obtain ⟨root, fields, hslot⟩ := slot_cons naming
  rw [hslot] at h ⊢
  rw [List.cons_prefix_cons]
  rintro ⟨rfl, -⟩
  exact h rfl

theorem slot_not_prefix (h : (slot naming).head? ≠ some x) : ¬ slot naming <+: [x] := by
  obtain ⟨root, fields, hslot⟩ := slot_cons naming
  rw [hslot] at h ⊢
  rw [List.cons_prefix_cons]
  rintro ⟨rfl, -⟩
  exact h rfl

theorem Free.ne_temp (h : Free naming x) (k : Nat) : x ≠ temp naming k := by
  rintro rfl
  refine h.stem ⟨(toString k).toList, ?_⟩
  rw [temp, String.toList_append]

theorem temp_inj {j k : Nat} (h : temp naming j = temp naming k) : j = k :=
  Nat.repr_injective ((String.append_right_inj naming.stem).mp h)

theorem temp_not_prefix_temp (h : j ≠ k) : ¬ [temp naming k] <+: [temp naming j] := by
  rw [List.cons_prefix_cons]
  rintro ⟨heq, -⟩
  exact h (temp_inj heq.symm)

theorem temp_not_prefix_cell (apart : Apart naming locals temps) (h : Free naming x)
    (hk : k < temps) : ¬ [temp naming k] <+: cell naming locals x := by
  unfold cell
  split <;> rw [List.cons_prefix_cons] <;> rintro ⟨heq, -⟩
  · exact apart.container k hk heq.symm
  · exact h.ne_temp k heq.symm

theorem slot_not_prefix_cell (apart : Apart naming locals temps) (h : Free naming x) :
    ¬ slot naming <+: cell naming locals x := by
  unfold cell
  split
  · next hx => exact (apart.field x hx).1
  · exact slot_not_prefix h.root

/-- The place of a name lies in that of no other one: the container is no name of the source. -/
theorem cell_not_prefix_cell (h : Free naming x) (hxy : y ≠ x) :
    ¬ cell naming locals x <+: cell naming locals y := by
  unfold cell
  split <;> split <;> simp only [List.cons_prefix_cons, List.nil_prefix, List.prefix_nil, and_true]
  · exact fun hp => hxy hp.2.symm
  · exact fun hp => by cases hp.2
  · exact h.container
  · exact fun hp => hxy hp.symm

end

/-! ## §2. Worlds of a program. -/

section

variable {V : Type} {naming : Naming} {locals : List String} {free : String → Prop}
  {temps j k : Nat} {m m₁ m₂ w w' : World V}

/-- The names of the source and the temps below a number keep their values. -/
structure Steady (naming : Naming) (locals : List String) (free : String → Prop) (k : Nat)
    (m m' : World V) : Prop where
  names : ∀ x, free x → m'.cells (cell naming locals x) = m.cells (cell naming locals x)
  temps : ∀ j < k, m'.cells [temp naming j] = m.cells [temp naming j]

/-- A world of a program holds the names of a world of the source, and the calls are the same. -/
structure Agree (naming : Naming) (locals : List String) (free : String → Prop)
    (w m : World V) : Prop where
  names : ∀ x, free x → m.cells (cell naming locals x) = w.cells [x]
  history : m.history = w.history

theorem Steady.refl (k : Nat) (m : World V) : Steady naming locals free k m m :=
  ⟨fun _ _ => rfl, fun _ _ => rfl⟩

theorem Steady.trans (h : Steady naming locals free j m m₁) (h' : Steady naming locals free k m₁ m₂)
    (hjk : j ≤ k) : Steady naming locals free j m m₂ :=
  ⟨fun x hx => (h'.names x hx).trans (h.names x hx),
    fun i hi => (h'.temps i (Nat.lt_of_lt_of_le hi hjk)).trans (h.temps i hi)⟩

/-- A place around neither the names of the source nor the temps. -/
theorem Steady.set {p : List String} (v : V) (hn : ∀ x, free x → ¬ p <+: cell naming locals x)
    (ht : ∀ j < k, ¬ p <+: [temp naming j]) : Steady naming locals free k m (m.set p v) :=
  ⟨fun x hx => m.set_of_not_prefix v (hn x hx), fun j hj => m.set_of_not_prefix v (ht j hj)⟩

theorem Steady.set_temp (v : V) (apart : Apart naming locals temps)
    (hfree : ∀ x, free x → Free naming x) (hk : k < temps) :
    Steady naming locals free k m (m.set [temp naming k] v) :=
  .set v (fun x hx => temp_not_prefix_cell apart (hfree x hx) hk)
    fun _ hj => temp_not_prefix_temp (Nat.ne_of_lt hj)

theorem Steady.set_slot (v : V) (apart : Apart naming locals temps)
    (hfree : ∀ x, free x → Free naming x) (hk : k ≤ temps) :
    Steady naming locals free k m (m.set (slot naming) v) :=
  .set v (fun x hx => slot_not_prefix_cell apart (hfree x hx))
    fun j hj => slot_not_prefix (apart.root j (Nat.lt_of_lt_of_le hj hk))

/-- The source has called something and changed no name; the program has followed. -/
theorem Agree.follow (h : Agree naming locals free w m) (hc : w'.cells = w.cells)
    (hs : Steady naming locals free k m m₁) (hh : m₁.history = w'.history) :
    Agree naming locals free w' m₁ :=
  ⟨fun x hx => by rw [hs.names x hx, h.names x hx, hc], hh⟩

end

/-! ## §3. Scopes and instructions. -/

/-- A scope of a walk in which no name is declared any more. -/
structure Fits (naming : Naming) (locals : List String) (σ : Scope) : Prop where
  container : σ.container = naming.container
  stem : σ.stem = naming.stem
  names : σ.names = locals

section

variable {V : Type} {host : Host V} {naming : Naming} {locals : List String} {temps k : Nat}
  {σ : Scope} {m m₁ m₂ : World V}

theorem Fits.nextTemp (h : Fits naming locals σ) : Fits naming locals σ.nextTemp.2 :=
  ⟨h.container, h.stem, h.names⟩

theorem Fits.nextTemp_name (h : Fits naming locals σ) : σ.nextTemp.1 = temp naming σ.temps := by
  show σ.stem ++ toString σ.temps = _
  rw [h.stem]
  rfl

/-- A reference reads the place of its name. -/
theorem Fits.place?_resolve (h : Fits naming locals σ) (x : String) :
    place? (programPlace naming) (σ.resolve x) = some (cell naming locals x) := by
  unfold cell Scope.resolve Scope.declared Scope.field
  rw [h.names, h.container]
  simp only [List.contains_iff_mem]
  split <;> simp [place?, path?, programPlace, Option.filter]

theorem eval_of_place {n : Node} {p : List String} (h : place? (programPlace naming) n = some p) :
    eval host (programPlace naming) n = read p := by
  cases n with
  | name x =>
    rw [eval]
    simp [place?, path?, programPlace, Option.filter] at h
    rw [h]
  | dot b f => rw [eval, h]
  | _ => cases h

theorem Plain.resolve {x : String} (apart : Apart naming locals temps) (h : Fits naming locals σ)
    (hx : Free naming x) : Plain naming (σ.resolve x) := by
  unfold Scope.resolve Scope.declared Scope.field
  rw [h.container, h.names]
  split
  · next hlocal =>
    intro p hp
    obtain rfl := Option.some.inj hp
    exact ⟨by simp, (apart.field x (List.contains_iff_mem.mp hlocal)).2⟩
  · intro p hp
    obtain rfl := Option.some.inj hp
    exact ⟨by simpa using hx.container, not_prefix_slot hx.root⟩

theorem Plain.temp (apart : Apart naming locals temps) (hk : k < temps) :
    Plain naming (.name (temp naming k)) := by
  intro p hp
  obtain rfl := Option.some.inj hp
  exact ⟨by simpa using (apart.container k hk).symm, not_prefix_slot (apart.root k hk)⟩

theorem runAll_cons {i : Instr} {rest : List Instr} :
    runAll host naming (i :: rest) m = some ((), m₂) ↔
      ∃ m₁, run host naming i m = some ((), m₁) ∧
        runAll host naming rest m₁ = some ((), m₂) := by
  rw [runAll, bind_some]
  exact ⟨fun ⟨_, m₁, h⟩ => ⟨m₁, h⟩, fun ⟨m₁, h⟩ => ⟨(), m₁, h⟩⟩

theorem runAll_nil : runAll host naming [] m = some ((), m) := by
  rw [runAll]
  rfl

theorem runAll_one {i : Instr} (h : run host naming i m = some ((), m₁)) :
    runAll host naming [i] m = some ((), m₁) :=
  runAll_cons.mpr ⟨m₁, h, runAll_nil⟩

/-- One list after the other. -/
theorem runAll_append {xs ys : List Instr} (h : runAll host naming xs m = some ((), m₁))
    (h' : runAll host naming ys m₁ = some ((), m₂)) :
    runAll host naming (xs ++ ys) m = some ((), m₂) := by
  induction xs generalizing m with
  | nil =>
    rw [runAll_nil] at h
    cases h
    exact h'
  | cons i xs ih =>
    obtain ⟨m₃, hi, hxs⟩ := runAll_cons.mp h
    exact runAll_cons.mpr ⟨m₃, hi, ih hxs⟩

theorem run_stat {e : Node} :
    run host naming (.stat e) = effect host (programPlace naming) e := by
  unfold Instr.stat
  rw [run, perform, if_pos rfl]

/-- An assignment as an instruction. -/
theorem run_set {t e : Node} {p : List String} {a : V}
    (ht : place? (programPlace naming) t = some p)
    (he : eval host (programPlace naming) e m = some (a, m₁)) :
    run host naming (.set t e) m = some ((), m₁.set p a) := by
  unfold Instr.set
  rw [run_stat, effect, ht]
  exact bind_some.mpr ⟨a, m₁, he, rfl⟩

theorem place?_name (x : String) : place? (programPlace naming) (.name x) = some [x] := by
  simp [place?, path?, programPlace, Option.filter]

theorem place?_dotted : place? (programPlace naming) (Naming.dotted naming.returnValue) =
    some (slot naming) := by
  rw [place?, path?_dotted]
  simp [programPlace, Option.filter]

/-- A call as an instruction. -/
theorem run_call {c : Node} {args : List Node} {async : Bool} {a : V}
    (h : eval host (programPlace naming) (.call c args) m = some (a, m₁)) :
    run host naming (.leaf "call" (.stat (.call c args)) async) m =
      some ((), m₁.set (slot naming) a) := by
  rw [run, perform, if_neg (by decide), if_pos rfl]
  exact bind_some.mpr ⟨a, m₁, h, rfl⟩

end

/-! ## §4. Standing for values. -/

/-- Running the code makes the calls of the expressions and changes no name.  Whatever is done
    next, the nodes `vs` have the values of the expressions as long as no name and no temp below
    `hi` is written; the code itself keeps the temps below `lo`. -/
def StandsFor {V : Type} (host : Host V) (naming : Naming) (locals : List String)
    (free : String → Prop) (lo hi : Nat) (ns vs : List Node) (code : List Instr) : Prop :=
  ∀ w as w' m, Agree naming locals free w m → evalAll host sourcePlace ns w = some (as, w') →
    w'.cells = w.cells ∧
      ∃ m₁, runAll host naming code m = some ((), m₁) ∧ m₁.history = w'.history ∧
        Steady naming locals free lo m m₁ ∧
        ∀ m₂, Steady naming locals free hi m₁ m₂ →
          evalAll host (programPlace naming) vs m₂ = some (as, m₂)

section

variable {V : Type} {host : Host V} {naming : Naming} {locals : List String}
  {free : String → Prop} {lo mid hi temps : Nat} {n v : Node} {ns ms vs us : List Node}
  {code code' : List Instr} {σ : Scope}

/-- An expression that needs no code and no calls. -/
theorem StandsFor.silent
    (h : ∀ (w m : World V) (a : V) (w' : World V),
      (∀ x, free x → m.cells (cell naming locals x) = w.cells [x]) →
      eval host sourcePlace n w = some (a, w') →
      w' = w ∧ eval host (programPlace naming) v m = some (a, m)) :
    StandsFor host naming locals free lo hi [n] [v] [] := by
  intro w as w' m hagree heval
  obtain ⟨a, ha, rfl⟩ := evalAll_one.mp heval
  obtain ⟨rfl, -⟩ := h w m a w' hagree.names ha
  refine ⟨rfl, m, runAll_nil, hagree.history, .refl _ _, fun m₂ hs => ?_⟩
  have hnames : ∀ x, free x → m₂.cells (cell naming locals x) = w'.cells [x] :=
    fun x hx => (hs.names x hx).trans (hagree.names x hx)
  exact evalAll_one.mpr ⟨a, (h w' m₂ a w' hnames ha).2, rfl⟩

theorem StandsFor.nil : StandsFor host naming locals free lo hi [] [] [] := by
  intro w as w' m hagree heval
  obtain ⟨rfl, rfl⟩ := evalAll_nil.mp heval
  exact ⟨rfl, m, runAll_nil, hagree.history, .refl _ _, fun m₂ _ => evalAll_nil.mpr ⟨rfl, rfl⟩⟩

theorem StandsFor.cons (h : StandsFor host naming locals free lo mid [n] [v] code)
    (h' : StandsFor host naming locals free mid hi ns vs code') (hlo : lo ≤ mid) (hhi : mid ≤ hi) :
    StandsFor host naming locals free lo hi (n :: ns) (v :: vs) (code ++ code') := by
  intro w as w' m hagree heval
  obtain ⟨a, w₁, bs, ha, hbs, rfl⟩ := evalAll_cons.mp heval
  obtain ⟨hcells, m₁, hrun, hhistory, hsteady, hlater⟩ :=
    h w [a] w₁ m hagree (evalAll_one.mpr ⟨a, ha, rfl⟩)
  -- the first value is used only after the code of the others, which keeps the temps below `mid`
  have hagree₁ := hagree.follow hcells hsteady hhistory
  obtain ⟨hcells', m₂, hrun', hhistory', hsteady', hlater'⟩ := h' w₁ bs w' m₁ hagree₁ hbs
  refine ⟨hcells'.trans hcells, m₂, runAll_append hrun hrun', hhistory',
    hsteady.trans hsteady' hlo, fun m₃ hs => ?_⟩
  obtain ⟨a', ha', heq⟩ := evalAll_one.mp (hlater m₃ (hsteady'.trans hs hhi))
  cases heq
  exact evalAll_cons.mpr ⟨a, m₃, bs, ha', hlater' m₃ hs, rfl⟩

/-- An expression put together from what stands for its operands has its value. -/
theorem eval_assemble {as : List V} {a : V} {m : World V} (hn : Strict n)
    (hplain : ∀ u ∈ vs, Plain naming u) (hlen : vs.length = (parts n).length)
    (hvs : evalAll host (programPlace naming) vs m = some (as, m))
    (ha : combine host n as = some a) :
    eval host (programPlace naming) (assemble σ n vs) m = some (a, m) := by
  obtain ⟨hstrict, hparts, hcombine⟩ := hn.assemble host σ hlen
  rw [eval_strict hstrict (hn.place?_assemble σ hlen hplain).1, hparts, hcombine]
  exact ⟨as, hvs, ha⟩

theorem StandsFor.kept (hn : Strict n) (hplain : ∀ u ∈ vs, Plain naming u)
    (hlen : vs.length = (parts n).length)
    (h : StandsFor host naming locals free lo hi (parts n) vs code) :
    StandsFor host naming locals free lo hi [n] [assemble σ n vs] code := by
  intro w as w' m hagree heval
  obtain ⟨a, ha, rfl⟩ := evalAll_one.mp heval
  obtain ⟨as, has, hcombine⟩ := (eval_strict hn hn.place?_source).mp ha
  obtain ⟨hcells, m₁, hrun, hhistory, hsteady, hlater⟩ := h w as w' m hagree has
  refine ⟨hcells, m₁, hrun, hhistory, hsteady, fun m₂ hs => ?_⟩
  exact evalAll_one.mpr ⟨a, eval_assemble hn hplain hlen (hlater m₂ hs) hcombine, rfl⟩

/-- A temp stands for the value that was written to it. -/
theorem evalAll_temp {k : Nat} {a : V} {m m₂ : World V}
    (hs : Steady naming locals free (k + 1) (m.set [temp naming k] a) m₂) :
    evalAll host (programPlace naming) [.name (temp naming k)] m₂ = some ([a], m₂) := by
  refine evalAll_one.mpr ⟨a, ?_, rfl⟩
  rw [eval, read_some]
  exact ⟨(hs.temps k (Nat.lt_succ_self k)).trans (m.set_self _ a), rfl⟩

theorem StandsFor.captured (apart : Apart naming locals temps)
    (hfree : ∀ x, free x → Free naming x) (hn : Strict n) (hplain : ∀ u ∈ vs, Plain naming u)
    (hlen : vs.length = (parts n).length) (hlo : lo ≤ hi) (hhi : hi < temps)
    (h : StandsFor host naming locals free lo hi (parts n) vs code) :
    StandsFor host naming locals free lo (hi + 1) [n] [.name (temp naming hi)]
      (code ++ [.set (.name (temp naming hi)) (assemble σ n vs)]) := by
  intro w as w' m hagree heval
  obtain ⟨a, ha, rfl⟩ := evalAll_one.mp heval
  obtain ⟨as, has, hcombine⟩ := (eval_strict hn hn.place?_source).mp ha
  obtain ⟨hcells, m₁, hrun, hhistory, hsteady, hlater⟩ := h w as w' m hagree has
  have hvalue : eval host (programPlace naming) (assemble σ n vs) m₁ = some (a, m₁) :=
    eval_assemble hn hplain hlen (hlater m₁ (.refl _ _)) hcombine
  have hset := run_set (place?_name (temp naming hi)) hvalue
  exact ⟨hcells, _, runAll_append hrun (runAll_one hset), hhistory,
    hsteady.trans (.set_temp a apart hfree hhi) hlo, fun m₂ hs => evalAll_temp hs⟩

/-- A call of a name, its answer in the slot, and the capture. -/
theorem StandsFor.called {f : String} {args : List Node} {async : Bool}
    (apart : Apart naming locals temps) (hfree : ∀ x, free x → Free naming x) (hlo : lo ≤ hi)
    (hhi : hi < temps)
    (h : StandsFor host naming locals free lo hi (.name f :: args) (v :: vs) code) :
    StandsFor host naming locals free lo (hi + 1) [.call (.name f) args] [.name (temp naming hi)]
      (code ++ [.leaf "call" (.stat (.call v vs)) async,
        .set (.name (temp naming hi)) (Naming.dotted naming.returnValue)]) := by
  intro w as w' m hagree heval
  obtain ⟨a, ha, rfl⟩ := evalAll_one.mp heval
  obtain ⟨callee, bs, w₁, hops, hinvoke⟩ := eval_call.mp ha
  obtain ⟨hanswer, rfl⟩ := invoke_some.mp hinvoke
  obtain ⟨hcells, m₁, hrun, hhistory, hsteady, hlater⟩ := h w _ w₁ m hagree hops
  -- the program makes the same call after the same calls, so the host gives the same answer
  let m₂ : World V := { m₁ with history := m₁.history ++ [⟨callee, bs⟩] }
  have hcall : eval host (programPlace naming) (.call v vs) m₁ = some (a, m₂) := by
    rw [← hhistory] at hanswer
    exact eval_call.mpr ⟨callee, bs, m₁, hlater m₁ (.refl _ _), invoke_some.mpr ⟨hanswer, rfl⟩⟩
  have hread : eval host (programPlace naming) (Naming.dotted naming.returnValue)
      (m₂.set (slot naming) a) = some (a, m₂.set (slot naming) a) := by
    rw [eval_of_place place?_dotted, read_some]
    exact ⟨m₂.set_self _ a, rfl⟩
  have hset := run_set (place?_name (temp naming hi)) hread
  have hsteady₂ : Steady naming locals free hi m₁ m₂ := ⟨fun _ _ => rfl, fun _ _ => rfl⟩
  have hslot := hsteady₂.trans (.set_slot a apart hfree (Nat.le_of_lt hhi)) (Nat.le_refl hi)
  refine ⟨hcells, _, runAll_append hrun (runAll_cons.mpr ⟨_, run_call hcall, runAll_one hset⟩), ?_,
    hsteady.trans (hslot.trans (.set_temp a apart hfree hhi) (Nat.le_refl hi)) hlo,
    fun m₃ hs => evalAll_temp hs⟩
  show m₁.history ++ _ = w₁.history ++ _
  rw [hhistory]

end

/-! ## §5. Derivations. -/

/-- The expressions whose values a job is about. -/
def values? : Job → Option (List Node)
  | .expr n => some [n]
  | .operands ns => some ns
  | _ => none

section

variable {V : Type} {host : Host V} {naming : Naming} {locals : List String}
  {temps : Nat} {free callable : String → Prop} {env : Surface} {job : Job} {σ σ' : Scope}
  {n : Node} {ns vs : List Node} {split : Bool} {code : List Instr}

theorem Value.standsFor_literal {lo hi : Nat} (h : Value free callable n)
    (hf : form n = .literal) : StandsFor host naming locals free lo hi [n] [n] [] := by
  refine .silent fun w m a w' _ ha => ?_
  cases h with
  | num s | string s | atom s =>
    rw [eval, pure_some] at ha ⊢
    exact ⟨ha.2.symm, ha.1, rfl⟩
  | _ => cases hf

theorem Value.plain_literal (h : Value free callable n) (hf : form n = .literal) :
    Plain naming n := by
  cases h with
  | num s | string s | atom s => exact .of_none rfl
  | _ => cases hf

theorem StandsFor.reference {lo hi : Nat} {x : String} (hfit : Fits naming locals σ)
    (hx : free x) : StandsFor host naming locals free lo hi [.name x] [σ.resolve x] [] := by
  refine .silent fun w m a w' hnames ha => ?_
  rw [eval, read_some] at ha
  refine ⟨ha.2.symm, ?_⟩
  rw [eval_of_place (hfit.place?_resolve x), read_some]
  exact ⟨(hnames x hx).trans ha.1, rfl⟩

/-- What a walk of values leaves stands for the values. -/
theorem emits_standsFor (henv : env.returnValue = Naming.dotted naming.returnValue)
    (apart : Apart naming locals temps) (hfree : ∀ x, free x → Free naming x)
    (hcallable : ∀ f, callable f → free f) (h : Emits env job σ vs split code σ') :
    ∀ ns, values? job = some ns → (∀ n ∈ ns, Value free callable n) → Fits naming locals σ →
      σ'.temps ≤ temps → Fits naming locals σ' ∧ (∀ v ∈ vs, Plain naming v) ∧
        StandsFor host naming locals free σ.temps σ'.temps ns vs code := by
  induction h with
  | reference x =>
    rintro _ ⟨⟩ hns hfit -
    cases hns _ List.mem_cons_self with
    | name hx =>
      have hplain : Plain naming _ := .resolve apart hfit (hfree x hx)
      exact ⟨hfit, List.forall_mem_singleton.mpr hplain, .reference hfit hx⟩
  | @literal σ n hf =>
    rintro _ ⟨⟩ hns hfit -
    have hn := hns n List.mem_cons_self
    exact ⟨hfit, List.forall_mem_singleton.mpr (hn.plain_literal hf), hn.standsFor_literal hf⟩
  | copied hf =>
    rintro _ ⟨⟩ hns hfit
    cases hns _ List.mem_cons_self <;> cases hf
  | @kept σ σ' n vs code hf ops ih =>
    rintro _ ⟨⟩ hns hfit htemps
    have hn := hns n List.mem_cons_self
    -- an assignment that is kept whole is an expression too, but no value
    have hf : form n = .combined := by
      rcases hf with hf | hf
      · exact hf
      · cases hn <;> cases hf
    have hlen := ops.operands_length
    obtain ⟨hfit', hplain, hstands⟩ := ih _ rfl (hn.parts hf) hfit htemps
    have hplain' := ((hn.strict hf).place?_assemble σ hlen hplain).2
    exact ⟨hfit', List.forall_mem_singleton.mpr hplain', hstands.kept (hn.strict hf) hplain hlen⟩
  | @captured σ σ' n vs code hf ops ih =>
    rintro _ ⟨⟩ hns hfit htemps
    have hn := hns n List.mem_cons_self
    obtain ⟨hfit', hplain, hstands⟩ := ih _ rfl (hn.parts hf) hfit (Nat.le_of_succ_le htemps)
    rw [hfit'.nextTemp_name]
    exact ⟨hfit'.nextTemp, List.forall_mem_singleton.mpr (.temp apart htemps),
      hstands.captured apart hfree (hn.strict hf) hplain ops.operands_length ops.grows.temps
        htemps⟩
  | assigned ht =>
    rintro _ ⟨⟩ hns hfit
    cases hns _ List.mem_cons_self
  | @called σ σ' c args vs split code ops ih =>
    rintro _ ⟨⟩ hns hfit htemps
    cases hns _ List.mem_cons_self with
    | @call f _ hf hargs =>
      have hops : ∀ n ∈ Node.name f :: args, Value free callable n := by
        intro n hn
        rcases List.mem_cons.mp hn with rfl | hn
        · exact .name (hcallable f hf)
        · exact hargs n hn
      obtain ⟨hfit', -, hstands⟩ := ih _ rfl hops hfit (Nat.le_of_succ_le htemps)
      rw [hfit'.nextTemp_name, captureInstr, henv]
      refine ⟨hfit'.nextTemp, List.forall_mem_singleton.mpr (.temp apart htemps), ?_⟩
      match vs, ops.operands_length with
      | v :: us, _ => exact hstands.called apart hfree ops.grows.temps htemps
  | operandsNil =>
    rintro _ ⟨⟩ hns hfit -
    exact ⟨hfit, by simp, .nil⟩
  | @operandsCons σ σ₁ σ₂ n v ns vs split split' code code' head tail ih ih' =>
    rintro _ ⟨⟩ hns hfit htemps
    have hhead : ∀ m ∈ [n], Value free callable m :=
      List.forall_mem_singleton.mpr (hns n List.mem_cons_self)
    obtain ⟨hfit₁, hplain, hstands⟩ :=
      ih _ rfl hhead hfit (Nat.le_trans tail.grows.temps htemps)
    obtain ⟨hfit₂, hplain', hstands'⟩ :=
      ih' _ rfl (fun m hm => hns m (List.mem_cons_of_mem _ hm)) hfit₁ htemps
    refine ⟨hfit₂, ?_, hstands.cons hstands' head.grows.temps tail.grows.temps⟩
    intro u hu
    rcases List.mem_cons.mp hu with rfl | hu
    · exact hplain _ List.mem_cons_self
    · exact hplain' u hu
  | leads hl => cases hl <;> rintro _ ⟨⟩
  | void hv => cases hv <;> rintro _ ⟨⟩
  | _ => rintro _ ⟨⟩

end

end Resumable.Meaning
