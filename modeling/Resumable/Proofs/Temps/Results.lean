/-
  Resumable.Proofs.Temps.Results — what the temp that stands for a side of a branch holds.

  A side of a branch that was split is hoisted in front of the branch, and a temp stands for it.
  That temp is the one made last when the side was walked, whoever made it: a function that is
  declared in the side makes temps as well, and sets them when it is called.

  The tree has the statements of the side in front of the reference to the temp (`Refers`).  The
  temp is set where the last call of the side stands, and the statement that sets it runs as a part
  of the statements in front of the branch (`OwnPart`) unless that call is in a function.

  Main statements:
    * `transform_names_results`      — what the temp of a side holds;
    * `transform_names_inner_result` — a branch that refers to a temp of another function.
-/
import Mathlib.Data.List.Nodup
import Mathlib.Data.List.Pairwise
import Resumable.Proofs.Execution.Steps
import Resumable.Proofs.Temps.Newest
import Resumable.Proofs.Walk.Dotted

namespace Resumable

/-! ## §1. Trees. -/

namespace Node

/-- A tree and what runs as a part of it: what stands in a function is not. -/
inductive OwnPart (m : Node) : Node → Prop
  | self : OwnPart m m
  | part {n : Node} {p : Position × Node} (hn : n.isCallable = false) (hp : p ∈ n.positions)
      (h : OwnPart m p.2) : OwnPart m n

/-- Some statements stand one after the other in a tree: in a splice, or in the list of the unit,
    which dissolves its splices. -/
def Lists (tree : Node) (ns : List Node) : Prop :=
  .spliceOf ns ∈ tree.everything ∨ ∃ body, tree = .toplevel body ∧ flatten ns <:+: body

/-- In a branch of a tree a temp stands for a side, behind the statements of the side. -/
inductive Refers (tree : Node) (x : String) (hoisted : List Node) : Prop
  | yes {c no : Node} {others : List Node}
      (h : tree.Lists (hoisted ++ others ++ [.ifElse c (.stat (.name x)) no]))
  | no {c yes : Node} {others : List Node}
      (h : tree.Lists (others ++ hoisted ++ [.ifElse c yes (.stat (.name x))]))

/-- Empty positions add nothing to a list. -/
theorem flatten_present (ns : List Node) :
    flatten (ns.filter fun n => !n.isAbsent) = flatten ns := by
  induction ns with
  | nil => rfl
  | cons n ns ih =>
    cases n with
    | absent =>
      rw [flatten, inlined, List.nil_append]
      exact ih
    | _ =>
      rw [List.filter_cons_of_pos rfl, flatten, flatten, ih]

end Node

namespace Program

open Instr (Plain Shaped located locatedAll lastCall? walkAll)
open Node (OwnPart)

section

variable {m : Node} {code : List Instr} {i : Instr}

theorem rises_ownPart (hm : m.isAbsent = false) : Rises (OwnPart m) where
  part hn hp h := .part hn hp h
  present {n} h := by
    cases h with
    | self => exact hm
    | part _ hp _ =>
      cases n with
      | absent => cases hp
      | _ => rfl

theorem ownPart_stat : OwnPart m (.stat m) := .part rfl List.mem_cons_self .self

theorem mem_of_located_plain {inside : Bool} {p : Bool × Instr} (h : ∀ i ∈ code, Plain i)
    (hp : p ∈ locatedAll inside code) : p.2 ∈ code := by
  induction code with
  | nil => cases hp
  | cons j code ih =>
    obtain ⟨hj, hcode⟩ := List.forall_mem_cons.mp h
    rw [locatedAll, List.mem_append] at hp
    rcases hp with hp | hp
    · refine List.mem_cons.mpr (.inl ?_)
      cases hj <;> exact congrArg (·.2) (List.mem_singleton.mp hp)
    · exact List.mem_cons_of_mem _ (ih hcode hp)

theorem rebuild_mem_rebuildAll (h : i ∈ code) : rebuild i ∈ rebuildAll code := by
  induction code with
  | nil => cases h
  | cons j code ih =>
    rw [rebuildAll]
    rcases List.mem_cons.mp h with rfl | h
    · exact List.mem_cons_self
    · exact List.mem_cons_of_mem _ (ih h)

/-- The statements of a list without branches and loops stand in its tree. -/
theorem stat_mem_of_plain (h : ∀ i ∈ code, Plain i)
    (hp : (false, .stat m) ∈ locatedAll false code) : .stat m ∈ rebuildAll code :=
  rebuild_mem_rebuildAll (mem_of_located_plain h hp)

mutual

/-- A statement in an instruction, outside of declarations, runs as a part of its tree. -/
theorem rebuild_ownPart (hm : m.isAbsent = false) {i : Instr} (hi : Shaped i)
    (hp : (false, .stat m) ∈ located false i) : OwnPart m (rebuild i) := by
  have rises := rises_ownPart hm
  cases i with
  | leaf command code async =>
    rw [located, List.mem_singleton] at hp
    cases hp
    exact ownPart_stat
  | branch c yes no hasElse shape yesTemp noTemp =>
    rw [located, List.mem_cons, List.mem_append] at hp
    cases hi with
    | plain hp => cases hp
    | branch hyes hno helse _ _ =>
      rcases hp with heq | hp | hp
      · cases heq
      · obtain ⟨n, hn, hpart⟩ := rebuildAll_ownPart hm hyes hp
        exact rises.branch helse (.inl hn) hpart
      · obtain ⟨n, hn, hpart⟩ := rebuildAll_ownPart hm hno hp
        exact rises.branch helse (.inr hn) hpart
  | loop c test step body condSplit e =>
    rw [located, List.mem_cons, List.mem_append, List.mem_append] at hp
    cases hi with
    | plain hp => cases hp
    | loop htest hstep hbody =>
      rcases hp with heq | (hp | hp) | hp
      · cases heq
      · cases htest with
        | none => cases hp
        | kept _ => simp [locatedAll, located, Instr.stat] at hp
        | @split _ front hcode =>
          rw [Instr.locatedAll_append, List.mem_append] at hp
          have hstat : .stat m ∈ rebuildAll front := by
            refine stat_mem_of_plain hcode (hp.resolve_right ?_)
            simp [locatedAll, located, Instr.stat]
          refine rises.loop (List.mem_append_left _ (List.mem_append_left _ ?_)) ownPart_stat
          rw [if_pos rfl, Execution.Interpretation.rebuildAll_append, rebuildAll, rebuildAll,
            List.dropLast_concat]
          exact List.mem_append_left _ hstat
      · cases hstep with
        | kept he =>
          -- an unsplit step is no statement of the body but stands in the head of the loop
          cases List.mem_singleton.mp hp
          rw [rebuild, rebuildLoop]
          exact rises.part (p := (.optional, m)) rfl (.tail _ (.tail _ (.head _))) .self
        | split hcode =>
          refine rises.loop (List.mem_append_right _ ?_) ownPart_stat
          exact stat_mem_of_plain hcode hp
      · obtain ⟨n, hn, hpart⟩ := rebuildAll_ownPart hm hbody hp
        exact rises.loop (List.mem_append_left _ (List.mem_append_right _ hn)) hpart
  | defun name params body =>
    rw [located, List.mem_cons, Instr.locatedAll_inside false, List.mem_map] at hp
    rcases hp with heq | ⟨q, -, heq⟩ <;> cases heq
termination_by structural i

theorem rebuildAll_ownPart (hm : m.isAbsent = false) {list : List Instr}
    (hlist : ∀ i ∈ list, Shaped i) (hp : (false, .stat m) ∈ locatedAll false list) :
    ∃ n ∈ rebuildAll list, OwnPart m n := by
  cases list with
  | nil => cases hp
  | cons i rest =>
    obtain ⟨hi, hrest⟩ := List.forall_mem_cons.mp hlist
    rw [locatedAll, List.mem_append] at hp
    rw [rebuildAll]
    rcases hp with hp | hp
    · exact ⟨_, List.mem_cons_self, rebuild_ownPart hm hi hp⟩
    · obtain ⟨n, hn, hpart⟩ := rebuildAll_ownPart hm hrest hp
      exact ⟨n, List.mem_cons_of_mem _ hn, hpart⟩
termination_by structural list

end

end

section

variable {naming : Naming} {isAsync : String → Bool} {unit : Node} {t : Transformed} {i : Instr}

/-- A branch that was hoisted stands in the tree with what is in front of it. -/
theorem lists_of_splice (h : (transform naming isAsync unit).1 = .ok t)
    (hi : i ∈ walkAll t.program) (hcontrol : i.isControl = true) {ns : List Node}
    (hsplice : rebuild i = .spliceOf ns) : t.tree.Lists ns := by
  rcases control_mem_tree h hi hcontrol with hmem | ⟨ms, heq, hinfix⟩
  · rw [hsplice] at hmem
    exact .inl hmem
  · refine .inr ⟨_, transform_tree h, ?_⟩
    rw [hsplice] at heq
    cases heq
    rwa [Node.flatten_present] at hinfix

theorem rebuildAll_ne_nil {list : List Instr} (h : list ≠ []) : rebuildAll list ≠ [] := by
  cases list with
  | nil => exact absurd rfl h
  | cons i rest => simp [rebuildAll]

theorem rebuildBranch_hoisted {c : Node} {front behind : List Node × Node}
    (h : front.1 ++ behind.1 ≠ []) : rebuildBranch c front behind =
      .spliceOf (front.1 ++ behind.1 ++ [.ifElse c front.2 behind.2]) := by
  unfold rebuildBranch
  exact if_neg (by simpa using h)

/-- The temp of a side stands in the branch, behind the statements of the side. -/
theorem Walk.Translates.refers {env : Surface} {n : Node} (htrans : Walk.Translates env n i)
    (h : (transform naming isAsync unit).1 = .ok t) (hi : i ∈ walkAll t.program) :
    ∀ side ∈ i.sides, ∀ x, side.2 = some x → side.1 ≠ [] →
      t.tree.Refers x (rebuildAll side.1) := by
  cases htrans with
  | loop => exact List.forall_mem_nil _
  | @branch _ _ _ _ _ _ _ source _ _ _ _ _ _ _ _ _ _ noDone =>
    have hlists : ∀ ns, rebuild _ = .spliceOf ns → t.tree.Lists ns :=
      fun _ => lists_of_splice h hi rfl
    rw [rebuild] at hlists
    refine List.forall_mem_cons.mpr ⟨?_, List.forall_mem_singleton.mpr ?_⟩
    · intro x hx hne
      dsimp only at hx
      rw [hx] at hlists
      refine .yes (hlists _ (rebuildBranch_hoisted ?_))
      exact List.append_ne_nil_of_left_ne_nil (rebuildAll_ne_nil hne) _
    · intro x hx hne
      dsimp only at hx
      -- a side with instructions is one of the source
      have hsome : (!source.isAbsent) = true := by
        by_contra hnone
        exact hne (region_absent noDone (by simpa using hnone))
      rw [hx, if_pos hsome] at hlists
      refine .no (hlists _ (rebuildBranch_hoisted ?_))
      exact List.append_ne_nil_of_right_ne_nil _ (rebuildAll_ne_nil hne)

end

/-! ## §2. Whole units. -/

section

variable {env : Surface} {job : Walk.Job} {σ σ' : Scope} {vs : List Node} {split : Bool}
  {list : List Instr} {x : String} {P : String → Bool}

/-- The temp that stands for a list is set where the last call of the list stands. -/
theorem Walk.Emits.result_set (h : Walk.Emits env job σ vs split list σ')
    (hx : Walk.regionTemp split σ' = some x) : list ≠ [] ∧ ∃ inside v,
      lastCall? (locatedAll false list) = some inside ∧
        (inside, .set (.name x) v) ∈ locatedAll false list := by
  cases split with
  | false => cases hx
  | true =>
    have hcalls := h.calls_of_split rfl
    refine ⟨fun hnil => hcalls (congrArg Instr.calls hnil), ?_⟩
    rcases h.newest with ⟨hnone, -⟩ | ⟨inside, y, v, hlast, hy, hmem⟩
    · exact absurd hnone (Instr.lastCall?_ne_none hcalls)
    · rw [Walk.regionTemp, if_pos rfl] at hx
      obtain rfl : y = x := Option.some.inj (hy.symm.trans hx)
      exact ⟨inside, v, hlast, hmem⟩

/-- The lists of a branch are those of a walk, and their temps are set in them. -/
theorem Walk.Translates.sides_set {n : Node} {i : Instr} (h : Walk.Translates env n i) :
    ∀ side ∈ i.sides, (∀ j ∈ side.1, Shaped j) ∧ ∀ x, side.2 = some x → side.1 ≠ [] ∧
      ∃ inside v, lastCall? (locatedAll false side.1) = some inside ∧
        (inside, .set (.name x) v) ∈ locatedAll false side.1 := by
  cases h with
  | loop => exact List.forall_mem_nil _
  | branch _ yesDone noDone =>
    exact List.forall_mem_cons.mpr ⟨⟨yesDone.shaped nofun, fun _ => yesDone.result_set⟩,
      List.forall_mem_singleton.mpr ⟨noDone.shaped nofun, fun _ => noDone.result_set⟩⟩

/-- A name that a list sets once is set at one place. -/
theorem located_once (h : ((Instr.sets list).filter P).Nodup) (hx : P x = true) {p q : Bool}
    {v w : Node} (hp : (p, .set (.name x) v) ∈ locatedAll false list)
    (hq : (q, .set (.name x) w) ∈ locatedAll false list) : p = q := by
  have hset (u : Node) : ((Instr.set (.name x) u).set?).filter P = some x := by
    rw [show (Instr.set (.name x) u).set? = some x from rfl, Option.filter_some, if_pos hx]
  unfold Instr.sets at h
  rw [← Instr.map_locatedAll false, List.filterMap_map, List.filter_filterMap] at h
  -- two different places would set the name twice
  let Apart (a b : Bool × Instr) : Prop := ∀ y, a.2.set?.filter P = some y →
    ∀ z, b.2.set?.filter P = some z → y ≠ z
  have hpairs : (locatedAll false list).Pairwise Apart := List.pairwise_filterMap.mp h
  have : Std.Symm Apart := ⟨fun _ _ hapart y hy z hz => (hapart z hz y hy).symm⟩
  by_contra hne
  exact hpairs.forall hp hq (fun heq => hne (congrArg (·.1) heq)) x (hset v) x (hset w) rfl

/-- What the list of a side sets is set in this order in the program. -/
theorem sets_sublist {i : Instr} (hi : i ∈ walkAll list) {side : List Instr × Option String}
    (hside : side ∈ i.sides) : (Instr.sets side.1).Sublist (Instr.sets list) := by
  refine List.Sublist.filterMap _ (List.Sublist.trans ?_ (Instr.walk_of_mem_walkAll hi).sublist)
  cases i with
  | branch _ yes no _ _ _ _ =>
    rw [Instr.walk]
    refine List.Sublist.cons _ ?_
    rcases List.mem_cons.mp hside with rfl | hside
    · exact List.sublist_append_left _ _
    · rw [List.mem_singleton.mp hside]
      exact List.sublist_append_right _ _
  | _ => cases hside

end

/-- Each temp that stands for a side of a branch stands for it in the tree, behind the statements of
    the side, and it is set where the last call of the side stands.  If that is not in a function
    that is declared in the side, one of the statements in front of the branch sets the temp.  If it
    is, nothing else in the side does, unless the source itself uses names like those of temps. -/
theorem transform_names_results (naming : Naming) (isAsync : String → Bool) (body : List Node)
    (t : Transformed) (h : (transform naming isAsync (.toplevel body)).1 = .ok t) :
    ∀ i ∈ walkAll t.program, ∀ side ∈ i.sides, ∀ x, side.2 = some x →
      t.tree.Refers x (rebuildAll side.1) ∧
      ∃ inside v, lastCall? (locatedAll false side.1) = some inside ∧
        (inside, .set (.name x) v) ∈ locatedAll false side.1 ∧
        (inside = false → ∃ n ∈ rebuildAll side.1, OwnPart (.assign "" (.name x) v) n) ∧
        ((∀ y ∈ (Node.toplevel body).names, naming.isNumbered y = false) →
          ∀ q w, (q, .set (.name x) w) ∈ locatedAll false side.1 → q = inside) := by
  intro i hi side hside x hx
  obtain ⟨body', σ, heq, hd⟩ := transform_emits h
  cases heq
  obtain ⟨vs, split, he⟩ := hd.emits
  have htemp (k : Nat) : naming.isNumbered ((naming.scope body).temp k) = true := by
    unfold Scope.temp
    rw [(naming.declares_scope body).stem]
    exact naming.isNumbered_temp k
  have hcontrol : i ∈ Instr.controls t.program := by
    refine List.mem_filter.mpr ⟨hi, ?_⟩
    cases i with
    | branch _ _ _ _ _ _ _ => rfl
    | _ => cases hside
  obtain ⟨n, htrans⟩ : ∃ n, Walk.Translates (naming.surface isAsync) n i := by
    obtain ⟨k, hk, rfl⟩ := List.getElem_of_mem hcontrol
    have hlength := he.controls_translate.length_eq
    exact ⟨_, he.controls_translate.get (hlength ▸ hk) hk⟩
  obtain ⟨hshaped, hset⟩ := htrans.sides_set side hside
  obtain ⟨hne, inside, v, hlast, hmem⟩ := hset x hx
  refine ⟨htrans.refers h hi side hside x hx hne, inside, v, hlast, hmem, ?_, ?_⟩
  · rintro rfl
    exact rebuildAll_ownPart rfl hshaped hmem
  · intro hfree q w hq
    -- the program sets each temp once, and so does the list
    have hnames : Node.NamesAllIn (naming.isNumbered · = false) body :=
      (Node.namesIn_children rfl rfl).mp hfree
    have hnodup : ((Instr.sets t.program).filter naming.isNumbered).Nodup := by
      rw [he.numbered htemp hnames]
      exact List.Nodup.map (fun _ _ => Scope.temp_injective _) List.nodup_range'
    have hx : naming.isNumbered x = true := he.sides_named htemp i hcontrol side hside x hx
    exact located_once (hnodup.sublist ((sets_sublist hi hside).filter _)) hx hq hmem

/-- A branch with calls on both sides: `if (c) y = f(g()); else { h(); k(); }`. -/
theorem transform_names_results_of_else :
    let call (f : String) (as : List Node) : Node := .call (.name f) as
    let body : List Node := [.ifElse (.name "c")
      (.stat (.assign "" (.name "y") (call "f" [call "g" []])))
      (.block [.stat (call "h" []), .stat (call "k" [])])]
    ∃ t, (transform {} (fun _ => false) (.toplevel body)).1 = .ok t ∧
      ∀ i ∈ walkAll t.program, ∀ side ∈ i.sides, ∀ x, side.2 = some x →
        t.tree.Refers x (rebuildAll side.1) ∧
        ∃ inside v, lastCall? (locatedAll false side.1) = some inside ∧
          (inside, .set (.name x) v) ∈ locatedAll false side.1 ∧
          (inside = false → ∃ n ∈ rebuildAll side.1, OwnPart (.assign "" (.name x) v) n) ∧
          ((∀ y ∈ (Node.toplevel body).names, Naming.isNumbered {} y = false) →
            ∀ q w, (q, .set (.name x) w) ∈ locatedAll false side.1 → q = inside) := by
  intro call body
  obtain ⟨t, ht⟩ : ∃ t, (transform {} (fun _ => false) (.toplevel body)).1 = .ok t :=
    exists_of_isOk (by decide +kernel)
  exact ⟨t, ht, transform_names_results {} (fun _ => false) body t ht⟩

/-- Whether a program is a branch with a side that calls `f` and declares a function that calls
    `h`, and a temp that is set in the function stands for the side. -/
def namesInner : List Instr → Bool
  | [.branch (.name "c") [.leaf "call" (.stat (.call (.name "f") [])) false,
        .leaf "stat" (.stat (.assign "" (.name "__DrutaTemp_0") _)) false,
        .defun "g" [] [.leaf "call" (.stat (.call (.name "h") [])) false,
          .leaf "stat" (.stat (.assign "" (.name "__DrutaTemp_1") _)) false]]
      [] false ⟨false, true, false⟩ (some "__DrutaTemp_1") none] => true
  | _ => false

section

variable {op : String} {target value : Node}

theorem not_ownPart_name (x : String) : ¬ OwnPart (.assign op target value) (.name x) := by
  rintro (_ | ⟨-, hp, -⟩)
  cases hp

/-- The fields of a dotted path have no assignments in front. -/
theorem not_ownPart_dotted (path : String) :
    ¬ OwnPart (.assign op target value) (Naming.dotted path) := by
  refine Naming.dotted_of (P := fun _ n => ¬ OwnPart (.assign op target value) n) path
    not_ownPart_name fun _ _ n f hn => ?_
  rintro (_ | ⟨-, hp, h⟩)
  cases List.mem_singleton.mp hp
  exact hn h

/-- A call of a name without arguments makes no assignments. -/
theorem not_ownPart_call (f : String) :
    ¬ OwnPart (.assign op target value) (.stat (.call (.name f) [])) := by
  rintro (_ | ⟨-, hp, h⟩)
  cases List.mem_singleton.mp hp
  rcases h with _ | ⟨-, hp, h⟩
  cases List.mem_singleton.mp hp
  exact not_ownPart_name f h

/-- A statement that captures a value makes one assignment. -/
theorem ownPart_capture {x : String} {path : String}
    (h : OwnPart (.assign op target value) (.stat (.assign "" (.name x) (Naming.dotted path)))) :
    target = .name x := by
  rcases h with _ | ⟨-, hp, h⟩
  cases List.mem_singleton.mp hp
  rcases h with _ | ⟨-, hp, h⟩
  · rfl
  rcases List.mem_cons.mp hp with rfl | hp
  · exact absurd h (not_ownPart_name x)
  · cases List.mem_singleton.mp hp
    exact absurd h (not_ownPart_dotted path)

end

theorem capture_value {env : Surface} {x y : String} {v : Node}
    (h : Walk.captureInstr env x = .set (.name y) v) : v = env.returnValue := by
  simp only [Walk.captureInstr, Instr.set, Instr.stat, Instr.leaf.injEq, Node.stat.injEq,
    Node.assign.injEq] at h
  exact h.2.1.2.2.symm

/-- In `if (c) { f(); function g() { h(); } }` the temp of the side is set only when `g` is called.
    None of the statements in front of the branch that refers to it sets it. -/
theorem transform_names_inner_result :
    let call (f : String) : Node := .stat (.call (.name f) [])
    let unit : Node := .toplevel [.ifElse (.name "c")
      (.block [call "f", .defun "g" [] [call "h"]]) .absent]
    ∃ t yes shape x, (transform {} (fun _ => false) unit).1 = .ok t ∧
      .branch (.name "c") yes [] false shape (some x) none ∈ t.program ∧
      t.tree = .toplevel (rebuildAll yes ++ [.ifElse (.name "c") (.stat (.name x)) .absent]) ∧
      ∀ v, (false, .set (.name x) v) ∉ locatedAll false yes ∧
        ∀ n ∈ rebuildAll yes, ¬ OwnPart (.assign "" (.name x) v) n := by
  intro call unit
  obtain ⟨t, ht, hshape⟩ := exists_of_okAnd (r := (transform {} (fun _ => false) unit).1)
    (fun t => namesInner t.program) (by decide +kernel)
  unfold namesInner at hshape
  split at hshape
  case h_2 => cases hshape
  case h_1 value value' hprogram =>
  -- what is captured behind the call of `f` sets nothing else
  obtain ⟨body, σ, -, hd⟩ := transform_emits ht
  obtain ⟨vs, split, he⟩ := hd.emits
  obtain ⟨ks, -, -, hafter⟩ := he.captures
  have hvalue : value = Naming.dotted (Naming.returnValue {}) := by
    have hfirst : some (Instr.set (.name "__DrutaTemp_0") value) ∈
        Instr.afterCalls t.program := by
      rw [hprogram]
      exact List.mem_cons_self
    rw [hafter] at hfirst
    obtain ⟨k, -, hk⟩ := List.mem_map.mp hfirst
    exact capture_value (Option.some.inj hk)
  refine ⟨t, _, _, _, ht, hprogram ▸ List.mem_cons_self, ?_, fun v => ⟨?_, ?_⟩⟩
  · rw [transform_tree ht, hprogram]
    rfl
  · simp [locatedAll, located, Instr.set, Instr.stat]
  · rw [hvalue]
    refine List.forall_mem_cons.mpr ⟨not_ownPart_call "f", List.forall_mem_cons.mpr ⟨?_,
      List.forall_mem_singleton.mpr ?_⟩⟩
    · intro h
      injection ownPart_capture h with hx
      exact absurd hx (by decide)
    · rintro (_ | ⟨hn, -, -⟩)
      cases hn

end Program

end Resumable
