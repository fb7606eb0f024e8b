/-
  Resumable.Proofs.Meaning.Preservation — a program does what its unit does.

  The names that a program uses for itself are not to be used by the source, and not for two things
  at once: `Free` and `Apart`.  The usual names are apart.  A configuration may choose names that
  are not, and then a program can overwrite what it still needs.

  Main statements: `transform_preserves_meaning` and `transform_overwrites_places`.
-/
import Mathlib
import Resumable.Proofs.Meaning.Simulation

namespace Resumable.Meaning

open Program (Instr Naming Scope transform transformBody walkUnit)

/-! ## §1. Names. -/

theorem slot_default : slot {} = ["self", "returnValue"] := Naming.parts_usual

/-- The usual names do not get in each other's way. -/
theorem apart_default (locals : List String) (temps : Nat) : Apart {} locals temps := by
  refine ⟨fun k _ h => ?_, fun k _ h => ?_, fun x _ => ?_⟩
  · have := congrArg String.toList h
    simp [temp] at this
  · rw [slot_default] at h
    have := congrArg String.toList (Option.some.inj h)
    simp [temp] at this
  · rw [slot_default]
    simp

/-- Once the root of the slot is known, the names that a program does not use for itself can be
    told. -/
theorem free_of {naming : Naming} {root : String} {fields xs : List String}
    (hslot : slot naming = root :: fields)
    (h : ∀ x ∈ xs, ¬ naming.stem.toList <+: x.toList ∧ x ≠ naming.container ∧ x ≠ root) :
    ∀ x ∈ xs, Free naming x := by
  intro x hx
  obtain ⟨hstem, hcontainer, hroot⟩ := h x hx
  refine ⟨hstem, hcontainer, ?_⟩
  rw [hslot]
  exact fun heq => hroot (Option.some.inj heq).symm

/-- A host of numbers.  The answer to a call is the number of calls made so far. -/
def counting : Host Nat where
  number s := s.toList.foldl (fun n c => 10 * n + (c.toNat - '0'.toNat)) 0
  text s := s.length
  keyword _ := 0
  array vs := vs.length
  member _ _ := none
  element _ _ := none
  binary op a b := some (if op = "<" then (if a < b then 1 else 0) else a + b)
  unary _ v := some v
  truthy v := v != 0
  answer history _ := some (history.length + 1)

/-- A world of zeros in which nothing was called. -/
def zeros : World Nat := ⟨fun _ => some 0, []⟩

/-- `for (var i = f(0); i < 3; i += g(i)) s = s + i` -/
def summing : List Node :=
  [.forLoop (.var [("i", .call (.name "f") [.num "0"])])
    (.binary "<" (.name "i") (.num "3"))
    (.assign "+" (.name "i") (.call (.name "g") [.name "i"]))
    (.stat (.assign "" (.name "s") (.binary "+" (.name "s") (.name "i"))))]

/-! ## §2. Whole units. -/

/-- The statements of a unit are of the fragment.  They use no name that a program uses for itself,
    and the names that they call are not declared. -/
def OfFragment (naming : Naming) (body : List Node) : Prop :=
  ∀ n ∈ body, Stmt (Free naming) (fun f => Free naming f ∧ f ∉ Node.varsAll body) n

/-- A program does what its unit does: whatever the host and wherever both start, if the unit comes
    to an end then so does the program, with the same calls in the same order and with the same
    values of the names of the source. -/
def Follows (naming : Naming) (body : List Node) (t : Program.Transformed) : Prop :=
  ∀ (V : Type) (host : Host V) (w m w' : World V),
    Agree naming t.locals (Free naming) w m → execAll host body w = some ((), w') →
      ∃ m', runAll host naming t.program m = some ((), m') ∧
        Agree naming t.locals (Free naming) w' m'

/-- A unit of the fragment is transformed, and its program does what the unit does, as long as the
    places that the program uses for itself do not get in each other's way. -/
theorem transform_preserves_meaning (naming : Naming) (isAsync : String → Bool) (body : List Node)
    (hbody : OfFragment naming body) :
    ∃ t, (transform naming isAsync (.toplevel body)).1 = .ok t ∧
      (Apart naming t.locals t.stats.temps → Follows naming body t) := by
  obtain ⟨t, ht⟩ := Program.transform_succeeds naming isAsync hbody
  obtain ⟨_, σ, hunit, hd⟩ := Program.transform_emits ht
  cases hunit
  obtain ⟨vs, split, he⟩ := hd.emits
  have hscope := naming.declares_scope body
  have hmem : ∀ x, x ∈ (naming.scope body).names ↔ x ∈ Node.varsAll body := by
    intro x
    rw [Naming.scope, Scope.mem_declareAll]
    simp
  refine ⟨t, ht, fun apart V host w m w' hagree hexec => ?_⟩
  have hfield : ∀ x ∈ (naming.scope body).names, x ∈ t.locals := by
    rw [hd.locals]
    exact fun x hx => he.grows.names.subset hx
  have terms : Terms (naming.surface isAsync) naming (naming.scope body).names t.stats.temps
      (Free naming) (fun f => Free naming f ∧ f ∉ Node.varsAll body) :=
    ⟨rfl, ⟨apart.container, apart.root, fun x hx => apart.field x (hfield x hx)⟩,
      fun _ hx => hx, fun f hf => ⟨hf.1, fun hf' => hf.2 ((hmem f).mp hf')⟩⟩
  have htemps : σ.temps ≤ t.stats.temps := Nat.le_of_eq (by rw [hd.stats])
  obtain ⟨hfit, hsim⟩ := emits_simulates terms host he hbody
    (fun x hx => (hmem x).mpr hx) ⟨hscope.container, hscope.stem, rfl⟩ htemps
  rw [hd.locals, hfit.names] at hagree ⊢
  exact hsim w m () w' hagree hexec

/-- From a world of zeros the loop is passed once: `f` answers 1 and `g` answers 2. -/
theorem transform_preserves_meaning_of_loop :
    ∃ t m, (transform {} (fun _ => false) (.toplevel summing)).1 = .ok t ∧
      runAll counting {} t.program zeros = some ((), m) ∧
      m.history = [⟨0, [0]⟩, ⟨0, [1]⟩] ∧ m.cells (cell {} t.locals "i") = some 3 ∧
      m.cells (cell {} t.locals "s") = some 1 := by
  have hfree : ∀ x ∈ ["i", "s", "f", "g"], Free {} x := free_of slot_default (by decide)
  have hi := hfree "i" (by decide)
  have hs := hfree "s" (by decide)
  have hf : Free {} "f" ∧ "f" ∉ Node.varsAll summing := ⟨hfree "f" (by decide), by decide⟩
  have hg : Free {} "g" ∧ "g" ∉ Node.varsAll summing := ⟨hfree "g" (by decide), by decide⟩
  have hsumming : OfFragment {} summing := by
    intro n hn
    obtain rfl := List.mem_singleton.mp hn
    refine .forLoop (fun _ => .var ?_) (fun _ => .binary rfl (.name hi) (.num "3"))
      (fun _ => .assign hi (.call hg ?_))
      (fun _ => .stat (.assign hs (.binary rfl (.name hs) (.name hi))))
    · intro d hd
      obtain rfl := List.mem_singleton.mp hd
      exact ⟨hi, .inr (.call hf (by simpa using .num "0"))⟩
    · simpa using .name hi
  let w₁ : World Nat := { zeros.set ["i"] 1 with history := [⟨0, [0]⟩] }
  let w₂ : World Nat :=
    { (w₁.set ["s"] 1).set ["i"] 3 with history := [⟨0, [0]⟩, ⟨0, [1]⟩] }
  have hinit : exec counting (.var [("i", .call (.name "f") [.num "0"])]) zeros =
      some ((), w₁) := rfl
  have hpass : (do
        exec counting (.stat (.assign "" (.name "s") (.binary "+" (.name "s") (.name "i"))))
        exec counting (.assign "+" (.name "i") (.call (.name "g") [.name "i"])) :
          Action Nat Unit) w₁ = some ((), w₂) := rfl
  have hagain : holds counting (.binary "<" (.name "i") (.num "3")) w₁ = some (true, w₁) := rfl
  have hdone : holds counting (.binary "<" (.name "i") (.num "3")) w₂ = some (false, w₂) := rfl
  have hloop := (iterate_again hagain hpass).trans (iterate_done hdone)
  have hend : execAll counting summing zeros = some ((), w₂) :=
    bind_some.mpr ⟨(), w₂, bind_some.mpr ⟨(), w₁, hinit, hloop⟩, rfl⟩
  obtain ⟨t, ht, hfollows⟩ := transform_preserves_meaning {} (fun _ => false) summing hsumming
  obtain ⟨m, hrun, hagree⟩ :=
    hfollows (apart_default _ _) Nat counting zeros zeros w₂ ⟨fun _ _ => rfl, rfl⟩ hend
  exact ⟨t, m, ht, hrun, hagree.history, hagree.names "i" hi, hagree.names "s" hs⟩

/-! ## §3. Places in each other's way. -/

/-- A unit of the fragment whose program does something else. -/
def Misled (naming : Naming) (body : List Node) : Prop :=
  OfFragment naming body ∧
    ∃ t, (transform naming (fun _ => false) (.toplevel body)).1 = .ok t ∧ ¬ Follows naming body t

/-- From a world of zeros the unit ends, and its program ends with another value of a name or not
    at all. -/
theorem misled_of_run {naming : Naming} {body : List Node} {t : Program.Transformed} {x : String}
    {w : World Nat} (hbody : OfFragment naming body)
    (ht : (transform naming (fun _ => false) (.toplevel body)).1 = .ok t) (hx : Free naming x)
    (hexec : execAll counting body zeros = some ((), w))
    (hrun : ∀ m, runAll counting naming t.program zeros = some ((), m) →
      m.cells (cell naming t.locals x) ≠ w.cells [x]) : Misled naming body := by
  refine ⟨hbody, t, ht, fun hfollows => ?_⟩
  obtain ⟨m, hm, hagree⟩ := hfollows Nat counting zeros zeros w ⟨fun _ _ => rfl, rfl⟩ hexec
  exact hrun m hm (hagree.names x hx)

/-- Which paths name places, once the slot is known. -/
theorem programPlace_eq {naming : Naming} {path : List String} (h : slot naming = path) :
    programPlace naming = fun p =>
      p.length == 1 || p == path || (p.length == 2 && p.head? == some naming.container) := by
  funext p
  rw [programPlace, h]

/-- `var returnValue = 2; y = f(); z = returnValue` -/
def named : List Node :=
  [.var [("returnValue", .num "2")], .stat (.assign "" (.name "y") (.call (.name "f") [])),
    .stat (.assign "" (.name "z") (.name "returnValue"))]

/-- The answer to the call is put where the name is kept. -/
theorem misled_named : Misled { container := "self" } named := by
  have hslot : slot { container := "self" } = ["self", "returnValue"] := slot_default
  have hfree : ∀ x ∈ ["returnValue", "y", "z", "f"], Free { container := "self" } x :=
    free_of hslot (by decide)
  have hreturn := hfree "returnValue" (by decide)
  have hy := hfree "y" (by decide)
  have hz := hfree "z" (by decide)
  have hf : Free { container := "self" } "f" ∧ "f" ∉ Node.varsAll named :=
    ⟨hfree "f" (by decide), by decide⟩
  obtain ⟨t, ht, hprogram, hlocals⟩ : ∃ t,
      (transform { container := "self" } (fun _ => false) (.toplevel named)).1 = .ok t ∧
      t.program = [.set (.dot (.name "self") "returnValue") (.num "2"),
        .leaf "call" (.stat (.call (.name "f") [])) false,
        .set (.name "__DrutaTemp_0") (.dot (.name "self") "returnValue"),
        .set (.name "y") (.name "__DrutaTemp_0"),
        .set (.name "z") (.dot (.name "self") "returnValue")] ∧
      t.locals = ["returnValue"] := by
    simp only [transform, transformBody, walkUnit, Naming.dotted_eq hslot]
    refine ⟨⟨_, _, _, _⟩, by cbv, rfl, rfl⟩
  refine misled_of_run ?_ ht hz rfl fun m hm => ?_
  · intro n hn
    simp only [named, List.mem_cons, List.not_mem_nil, or_false] at hn
    rcases hn with rfl | rfl | rfl
    · exact .var (List.forall_mem_singleton.mpr ⟨hreturn, .inl (.num "2")⟩)
    · exact .stat (.assign hy (.call hf (List.forall_mem_nil _)))
    · exact .stat (.assign hz (.name hreturn))
  · rw [hprogram] at hm
    simp only [runAll, run, Instr.set, Instr.stat, perform, programPlace_eq hslot, hslot] at hm
    obtain ⟨-, rfl⟩ := Prod.mk.inj (Option.some.inj hm)
    rw [hlocals]
    decide

/-- `z = f() + g()` -/
def summed : List Node :=
  [.stat (.assign "" (.name "z") (.binary "+" (.call (.name "f") []) (.call (.name "g") [])))]

theorem slot_temp : slot { returnValue := "__DrutaTemp_0" } = ["__DrutaTemp_0"] := by
  have hsplit : "__DrutaTemp_0".splitOn "." = ["__DrutaTemp_0"] := by
    rw [String.splitOn, if_neg (by decide)]
    repeat rw [Naming.splitOnAux_skip (by decide) (by decide)]
    rw [String.splitOnAux, if_pos (by decide)]
    decide
  exact Naming.parts_eq hsplit (List.cons_ne_nil _ _)

/-- The answer to the second call is put where the first one is kept. -/
theorem misled_summed : Misled { returnValue := "__DrutaTemp_0" } summed := by
  have hslot := slot_temp
  have hfree : ∀ x ∈ ["z", "f", "g"], Free { returnValue := "__DrutaTemp_0" } x :=
    free_of hslot (by decide)
  have hz := hfree "z" (by decide)
  have hf : Free { returnValue := "__DrutaTemp_0" } "f" ∧ "f" ∉ Node.varsAll summed :=
    ⟨hfree "f" (by decide), by decide⟩
  have hg : Free { returnValue := "__DrutaTemp_0" } "g" ∧ "g" ∉ Node.varsAll summed :=
    ⟨hfree "g" (by decide), by decide⟩
  obtain ⟨t, ht, hprogram, hlocals⟩ : ∃ t,
      (transform { returnValue := "__DrutaTemp_0" } (fun _ => false) (.toplevel summed)).1 =
        .ok t ∧
      t.program = [.leaf "call" (.stat (.call (.name "f") [])) false,
        .set (.name "__DrutaTemp_0") (.name "__DrutaTemp_0"),
        .leaf "call" (.stat (.call (.name "g") [])) false,
        .set (.name "__DrutaTemp_1") (.name "__DrutaTemp_0"),
        .set (.name "__DrutaTemp_2")
          (.binary "+" (.name "__DrutaTemp_0") (.name "__DrutaTemp_1")),
        .set (.name "z") (.name "__DrutaTemp_2")] ∧
      t.locals = [] := by
    simp only [transform, transformBody, walkUnit, Naming.dotted_eq hslot]
    refine ⟨⟨_, _, _, _⟩, by cbv, rfl, rfl⟩
  refine misled_of_run ?_ ht hz rfl fun m hm => ?_
  · intro n hn
    obtain rfl := List.mem_singleton.mp hn
    exact .stat (.assign hz (.binary rfl (.call hf (List.forall_mem_nil _))
      (.call hg (List.forall_mem_nil _))))
  · rw [hprogram] at hm
    simp only [runAll, run, Instr.set, Instr.stat, perform, programPlace_eq hslot, hslot] at hm
    obtain ⟨-, rfl⟩ := Prod.mk.inj (Option.some.inj hm)
    rw [hlocals]
    decide

/-- `var x = 2; f(); z = x` -/
def kept : List Node :=
  [.var [("x", .num "2")], .stat (.call (.name "f") []), .stat (.assign "" (.name "z") (.name "x"))]

/-- The capture of the answer takes the place of the container. -/
theorem misled_kept : Misled { container := "__DrutaTemp_0" } kept := by
  have hslot : slot { container := "__DrutaTemp_0" } = ["self", "returnValue"] := slot_default
  have hfree : ∀ x ∈ ["x", "z", "f"], Free { container := "__DrutaTemp_0" } x :=
    free_of hslot (by decide)
  have hx := hfree "x" (by decide)
  have hz := hfree "z" (by decide)
  have hf : Free { container := "__DrutaTemp_0" } "f" ∧ "f" ∉ Node.varsAll kept :=
    ⟨hfree "f" (by decide), by decide⟩
  obtain ⟨t, ht, hprogram⟩ : ∃ t,
      (transform { container := "__DrutaTemp_0" } (fun _ => false) (.toplevel kept)).1 = .ok t ∧
      t.program = [.set (.dot (.name "__DrutaTemp_0") "x") (.num "2"),
        .leaf "call" (.stat (.call (.name "f") [])) false,
        .set (.name "__DrutaTemp_0") (.dot (.name "self") "returnValue"),
        .set (.name "z") (.dot (.name "__DrutaTemp_0") "x")] := by
    simp only [transform, transformBody, walkUnit, Naming.dotted_eq hslot]
    refine ⟨⟨_, _, _, _⟩, by cbv, rfl⟩
  refine misled_of_run ?_ ht hz rfl fun m hm => ?_
  · intro n hn
    simp only [kept, List.mem_cons, List.not_mem_nil, or_false] at hn
    rcases hn with rfl | rfl | rfl
    · exact .var (List.forall_mem_singleton.mpr ⟨hx, .inl (.num "2")⟩)
    · exact .stat (.value (.call hf (List.forall_mem_nil _)))
    · exact .stat (.assign hz (.name hx))
  · rw [hprogram] at hm
    simp only [runAll, run, Instr.set, Instr.stat, perform, programPlace_eq hslot, hslot] at hm
    cases hm

/-- Configurations in which places get in each other's way: a name is kept in the slot, the slot is
    a temp, and the container is a temp. -/
theorem transform_overwrites_places :
    Misled { container := "self" } named ∧ Misled { returnValue := "__DrutaTemp_0" } summed ∧
      Misled { container := "__DrutaTemp_0" } kept :=
  ⟨misled_named, misled_summed, misled_kept⟩

end Resumable.Meaning
