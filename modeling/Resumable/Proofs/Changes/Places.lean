/-
  Resumable.Proofs.Changes.Places — which places are changed.

  A change is an assignment, `++`, `--` or `delete`, and what it changes is its place.  The places
  of a tree are listed at any depth (`changedPlaces`), for what a function literal changes is
  changed when it runs.

  The code of expressions changes the temps that it makes, and what the expressions change.
  `Alters` says how a node of the source comes to change a place in the code: it is a change there
  as well, with the values of its operands, or a construct that was copied as a whole and changes
  the place.

  Main statement: `Emits.places_altered`.
-/
import Resumable.Proofs.Changes.Values
import Resumable.Proofs.Walk.Names

namespace Resumable

open Program.Walk (mutates isTarget)

namespace Node

/-! ## §1. Changed places. -/

/-- What a node changes, apart from what is inside it. -/
def changed? : Node → Option Node
  | assign _ t _ => some t
  | unary _ op e => if mutates op then some e else none
  | forIn x _ _ => some x
  | _ => none

/-- What a tree changes, function literals included. -/
def changedPlaces (n : Node) : List Node := n.everything.filterMap changed?

section

variable {n m g : Node} {l : List Node} {x : String}

theorem everything_children (hn : n.isAbsent = false) (hc : n.children = present l) :
    n.everything = n :: l.flatMap everything := by
  unfold everything
  rw [inspect_eq _ hn rfl, hc, flatMap_present_of _ (by rw [inspect])]

/-- What a tree changes is what its root changes and what the operands change. -/
theorem mem_changedPlaces (hn : n.isAbsent = false) (hc : n.children = present l) :
    g ∈ n.changedPlaces ↔ n.changed? = some g ∨ ∃ c ∈ l, g ∈ c.changedPlaces := by
  unfold changedPlaces
  rw [everything_children hn hc, List.filterMap_cons, List.filterMap_flatMap]
  cases hg : n.changed? <;> simp [eq_comm]

theorem changedPlaces_leaf (hn : n.isAbsent = false) (hc : n.children = [])
    (hg : n.changed? = none) : n.changedPlaces = [] := by
  refine List.eq_nil_iff_forall_not_mem.mpr fun g h => ?_
  rw [mem_changedPlaces hn (l := []) hc, hg] at h
  simp at h

theorem mem_names_iff : x ∈ n.names ↔ name x ∈ n.everything := by
  unfold names
  rw [List.mem_filterMap]
  constructor
  · rintro ⟨m, hm, hx⟩
    cases m <;> cases hx
    exact hm
  · exact fun h => ⟨name x, h, rfl⟩

/-- What is in something in a tree is in the tree. -/
theorem everything_trans {n m : Node} (hm : m ∈ n.everything) : m.everything ⊆ n.everything := by
  cases hn : n.isAbsent with
  | true =>
    cases n <;> cases hn
    rw [everything, inspect] at hm
    cases hm
  | false =>
    rw [everything, inspect_eq _ hn rfl, List.mem_cons, List.mem_flatMap] at hm
    rcases hm with rfl | ⟨c, hc, hm⟩
    · exact List.Subset.refl _
    · intro k hk
      rw [everything, inspect_eq _ hn rfl]
      exact List.mem_cons_of_mem _ (List.mem_flatMap.mpr ⟨c, hc, everything_trans hm hk⟩)
termination_by sizeOf n
decreasing_by exact sizeOf_lt_of_mem_children hc

/-- A walk over a tree that does not enter everything meets nothing else. -/
theorem inspect_subset (enter : Node → Bool) (n : Node) : n.inspect enter ⊆ n.everything := by
  cases hn : n.isAbsent with
  | true =>
    cases n <;> cases hn
    rw [inspect]
    exact List.nil_subset _
  | false =>
    intro m hm
    rw [everything, inspect_eq _ hn rfl]
    cases he : enter n with
    | false =>
      rw [inspect_stop hn he, List.mem_singleton] at hm
      rw [hm]
      exact List.mem_cons_self
    | true =>
      rw [inspect_eq _ hn he, List.mem_cons, List.mem_flatMap] at hm
      rcases hm with rfl | ⟨c, hc, hm⟩
      · exact List.mem_cons_self
      · exact List.mem_cons_of_mem _ (List.mem_flatMap.mpr ⟨c, hc, inspect_subset enter c hm⟩)
termination_by sizeOf n
decreasing_by exact sizeOf_lt_of_mem_children hc

theorem analysed_self (hn : n.isAbsent = false) : n ∈ n.analysed := by
  cases hw : n.isWhole with
  | true =>
    rw [analysed, inspect_stop hn (by rw [hw, Bool.not_true])]
    exact List.mem_singleton_self n
  | false =>
    rw [analysed, inspect_eq _ hn (by rw [hw, Bool.not_false])]
    exact List.mem_cons_self

/-- What is looked at in an operand is looked at in the whole. -/
theorem analysed_children (hn : n.isAbsent = false) (hw : n.isWhole = false)
    (hc : n.children = present l) (hm : m ∈ l) : m.analysed ⊆ n.analysed := by
  intro k hk
  have hpresent : n.analysed = n :: l.flatMap analysed := by
    rw [analysed, inspect_eq _ hn (by rw [hw, Bool.not_false]), hc,
      flatMap_present_of _ (by rw [inspect])]
    rfl
  rw [hpresent]
  exact List.mem_cons_of_mem _ (List.mem_flatMap.mpr ⟨m, hm, hk⟩)

theorem names_subset (hm : m ∈ n.everything) : m.names ⊆ n.names := fun _ hx =>
  mem_names_iff.mpr (everything_trans hm (mem_names_iff.mp hx))

theorem names_changed (h : n.changed? = some g) : g.names ⊆ n.names := by
  intro x hx
  cases n with
  | assign op t v =>
    cases h
    rw [names_children rfl (l := [g, v]) rfl]
    simp [hx]
  | forIn t o b =>
    cases h
    rw [names_children rfl (l := [g, o, b]) rfl]
    simp [hx]
  | unary side op e =>
    rw [changed?, Option.ite_none_right_eq_some] at h
    obtain ⟨-, h⟩ := h
    cases h
    rw [names_children rfl (l := [g]) rfl]
    simp [hx]
  | _ => cases h

theorem names_changedPlaces (h : g ∈ n.changedPlaces) : g.names ⊆ n.names := by
  obtain ⟨m, hm, hg⟩ := List.mem_filterMap.mp h
  exact List.Subset.trans (names_changed hg) (names_subset hm)

end

end Node

namespace Program

/-- What the payload or the condition of an instruction changes. -/
def Instr.changedPlaces : Instr → List Node
  | leaf _ code _ => code.changedPlaces
  | branch cond _ _ _ _ _ _ => cond.changedPlaces
  | loop _ _ _ _ _ _ | defun _ _ _ => []

/-- What a list of instructions changes, nested ones included. -/
def Instr.changedPlacesAll (list : List Instr) : List Node :=
  (walkAll list).flatMap changedPlaces

/-- An instruction carries out an expression, or sets a name to it. -/
def Instr.Uses (i : Instr) (e : Node) : Prop :=
  (∃ command async, i = .leaf command (.stat e) async) ∨ ∃ x, i = .set (.name x) e

namespace Instr

open Node (mem_changedPlaces changedPlaces_leaf)

variable {g e target value : Node} {x : String}

@[simp] theorem changedPlacesAll_append (xs ys : List Instr) :
    changedPlacesAll (xs ++ ys) = changedPlacesAll xs ++ changedPlacesAll ys := by
  unfold changedPlacesAll
  rw [walkAll_append, List.flatMap_append]

theorem changedPlacesAll_leaf (command : String) (code : Node) (async : Bool) :
    changedPlacesAll [.leaf command code async] = code.changedPlaces := by
  simp [changedPlacesAll, walkAll, walk, changedPlaces]

theorem mem_changedPlaces_stat (command : String) (async : Bool) :
    g ∈ changedPlacesAll [.leaf command (.stat e) async] ↔ g ∈ e.changedPlaces := by
  rw [changedPlacesAll_leaf, mem_changedPlaces rfl (l := [e]) rfl]
  simp [Node.changed?]

theorem mem_changedPlaces_set :
    g ∈ changedPlacesAll [.set (.name x) value] ↔ g = .name x ∨ g ∈ value.changedPlaces := by
  rw [set, stat, mem_changedPlaces_stat, mem_changedPlaces rfl (l := [.name x, value]) rfl]
  simp [Node.changed?, changedPlaces_leaf (n := .name x) rfl rfl rfl, eq_comm]

end Instr

namespace Walk

open Node (changedPlaces mem_changedPlaces changedPlaces_leaf)

section

variable {env : Surface} {σ σ' σ₁ σ₂ : Scope} {n t g : Node} {ns vs : List Node}
  {split : Bool} {code : List Instr}

/-! ## §2. Places in expressions that were put together. -/

theorem changedPlaces_resolve (σ : Scope) (x : String) : (σ.resolve x).changedPlaces = [] := by
  unfold Scope.resolve Scope.field
  split
  · rfl
  · rfl

theorem changedPlaces_placeFrom (ht : isTarget t = true)
    (hlen : (placeParts t).length ≤ vs.length) (h : g ∈ (placeFrom σ t vs).changedPlaces) :
    ∃ v ∈ vs, g ∈ v.changedPlaces := by
  cases t with
  | name x =>
    rw [placeFrom, changedPlaces_resolve] at h
    cases h
  | dot b f =>
    rcases vs with _ | ⟨v, vs⟩
    · simp [placeParts] at hlen
    · rw [placeFrom, mem_changedPlaces rfl (l := [v]) rfl] at h
      simp only [Node.changed?, reduceCtorEq, false_or, List.mem_singleton] at h
      obtain ⟨_, rfl, hg⟩ := h
      exact ⟨_, List.mem_cons_self, hg⟩
  | sub b i =>
    rcases vs with _ | ⟨v, _ | ⟨w, vs⟩⟩
    · simp [placeParts] at hlen
    · simp [placeParts] at hlen
    · rw [placeFrom, mem_changedPlaces rfl (l := [v, w]) rfl] at h
      simp only [Node.changed?, reduceCtorEq, false_or] at h
      obtain ⟨u, hu, hg⟩ := h
      exact ⟨u, List.mem_of_mem_take (i := 2) hu, hg⟩
  | _ => cases ht

/-- What an expression changes that was put together from values: what it changes itself, and what
    the values change. -/
theorem changedPlaces_assemble (h : form n = .combined ∨ form n = .assigned ∨ form n = .called)
    (hlen : vs.length = (parts n).length) (hg : g ∈ (assemble σ n vs).changedPlaces) :
    (assemble σ n vs).changed? = some g ∨ ∃ v ∈ vs, g ∈ v.changedPlaces := by
  -- whatever is below the root is made of the values
  have hbelow : ∀ {l : List Node}, (assemble σ n vs).isAbsent = false →
      (assemble σ n vs).children = Node.present l →
      (∀ c ∈ l, g ∈ c.changedPlaces → ∃ v ∈ vs, g ∈ v.changedPlaces) →
      (assemble σ n vs).changed? = some g ∨ ∃ v ∈ vs, g ∈ v.changedPlaces := by
    intro l ha hc hl
    rcases (mem_changedPlaces ha hc).mp hg with hroot | ⟨c, hmem, hg⟩
    · exact .inl hroot
    · exact .inr (hl c hmem hg)
  have hself : ∀ c ∈ vs, g ∈ c.changedPlaces → ∃ v ∈ vs, g ∈ v.changedPlaces :=
    fun c hc hg => ⟨c, hc, hg⟩
  cases n with
  | call c args =>
    rw [parts, List.length_append] at hlen
    refine hbelow rfl rfl (List.forall_mem_cons.mpr ⟨fun hg => ?_, fun c hc hg =>
      ⟨c, List.mem_of_mem_drop hc, hg⟩⟩)
    unfold calleeFrom calleeParts at *
    split at hg
    · next hc =>
      rw [if_pos hc] at hlen
      exact changedPlaces_placeFrom (isTarget_of_isMember hc) (by omega) hg
    · next hc =>
      rw [if_neg hc] at hlen
      match vs with
      | [] =>
        simp only [List.length_nil, List.length_singleton] at hlen
        omega
      | v :: _ => exact ⟨v, List.mem_cons_self, hg⟩
  | unary side op e =>
    refine hbelow rfl (l := [operandFrom σ op e vs]) rfl
      (List.forall_mem_singleton.mpr fun hg => ?_)
    rw [parts] at hlen
    unfold operandFrom operandParts at *
    split at hg
    · next he =>
      rw [if_pos he] at hlen
      exact changedPlaces_placeFrom (Bool.and_eq_true_iff.mp he).2 (by omega) hg
    · next he =>
      rw [if_neg he] at hlen
      match vs with
      | [v] => exact ⟨v, List.mem_cons_self, hg⟩
  | assign op t v =>
    rw [parts, List.length_append, List.length_singleton] at hlen
    refine hbelow rfl (l := [placeFrom σ t vs, (vs.drop (placeParts t).length).headD .absent]) rfl
      (List.forall_mem_cons.mpr ⟨changedPlaces_placeFrom (isTarget_of_form h) (by omega),
        List.forall_mem_singleton.mpr fun hg => ?_⟩)
    cases hdrop : vs.drop (placeParts t).length with
    | nil =>
      have hnone := congrArg List.length hdrop
      rw [List.length_drop, List.length_nil] at hnone
      omega
    | cons w ws =>
      rw [hdrop] at hg
      exact ⟨w, List.mem_of_mem_drop (hdrop ▸ List.mem_cons_self), hg⟩
  | array es => exact hbelow rfl rfl hself
  | object ps =>
    refine hbelow rfl rfl fun c hc hg => ?_
    obtain ⟨p, hp, rfl⟩ := List.mem_map.mp hc
    exact ⟨p.2, (List.of_mem_zip hp).2, hg⟩
  | new c args =>
    match vs with
    | [] => simp [parts] at hlen
    | _ :: _ => exact hbelow rfl rfl hself
  | dot b f =>
    match vs with
    | [] | _ :: _ :: _ => simp [parts] at hlen
    | [v] => exact hbelow rfl (l := [v]) rfl hself
  | binary op l r | sub b i =>
    match vs with
    | [] | [_] | _ :: _ :: _ :: _ => simp [parts] at hlen
    | [v, w] => exact hbelow rfl (l := [v, w]) rfl hself
  | _ => rcases h with h | h | h <;> cases h

/-! ## §3. Where a changed place comes from. -/

/-- A node of the source, walked between two scopes, changes a place in the code: it is a change
    there as well, with the values of its operands, or the copy of it changes the place. -/
inductive Alters (env : Surface) (σ σ' : Scope) : Node → Node → Prop
  | change {m m' g : Node} (rewritten : Rewritten env σ σ' m m') (place : m'.changed? = some g) :
      Alters env σ σ' m g
  | copied {m g : Node} {σ₁ : Scope} (isCopied : form m = .copied) (before : σ.Grows σ₁)
      (behind : σ₁.Grows σ') (place : g ∈ (copy σ₁ m).changedPlaces) : Alters env σ σ' m g

/-- Something in an expression changes a place in the code. -/
def AltersIn (env : Surface) (σ σ' : Scope) (n g : Node) : Prop :=
  ∃ m ∈ n.analysed, Alters env σ σ' m g

theorem AltersIn.widen (h : AltersIn env σ₁ σ₂ n g) (hσ : σ.Grows σ₁) (hσ' : σ₂.Grows σ') :
    AltersIn env σ σ' n g := by
  obtain ⟨m, hm, hg⟩ := h
  refine ⟨m, hm, ?_⟩
  cases hg with
  | change hr hp => exact .change (hr.widen hσ hσ') hp
  | copied hf h₁ h₂ hp => exact .copied hf (hσ.trans h₁) (h₂.trans hσ') hp

theorem analysed_place (ht : isTarget t = true) {p : Node} (hp : p ∈ placeParts t) :
    p.analysed ⊆ t.analysed := by
  cases t with
  | name x => cases hp
  | dot b f => exact Node.analysed_children rfl rfl (l := [b]) rfl hp
  | sub b i => exact Node.analysed_children rfl rfl (l := [b, i]) rfl hp
  | _ => cases ht

/-- What is looked at in an operand is looked at in the expression. -/
theorem analysed_parts (h : form n = .combined ∨ form n = .assigned ∨ form n = .called)
    {p : Node} (hp : p ∈ parts n) : p.analysed ⊆ n.analysed := by
  cases n with
  | call c args =>
    have hchild {k : Node} (hk : k ∈ c :: args) : k.analysed ⊆ (Node.call c args).analysed :=
      Node.analysed_children rfl rfl rfl hk
    rcases List.mem_append.mp hp with hp | hp
    · unfold calleeParts at hp
      split at hp
      · next hc =>
        exact List.Subset.trans (analysed_place (isTarget_of_isMember hc) hp)
          (hchild List.mem_cons_self)
      · rw [List.mem_singleton.mp hp]
        exact hchild List.mem_cons_self
    · exact hchild (List.mem_cons_of_mem _ hp)
  | unary side op e =>
    have hchild : e.analysed ⊆ (Node.unary side op e).analysed :=
      Node.analysed_children rfl rfl (l := [e]) rfl List.mem_cons_self
    rw [parts] at hp
    unfold operandParts at hp
    split at hp
    · next he =>
      exact List.Subset.trans (analysed_place (Bool.and_eq_true_iff.mp he).2 hp) hchild
    · rw [List.mem_singleton.mp hp]
      exact hchild
  | assign op t v =>
    have hchild {k : Node} (hk : k ∈ [t, v]) : k.analysed ⊆ (Node.assign op t v).analysed :=
      Node.analysed_children rfl rfl rfl hk
    rcases List.mem_append.mp hp with hp | hp
    · exact List.Subset.trans (analysed_place (isTarget_of_form h) hp) (hchild List.mem_cons_self)
    · exact hchild (List.mem_cons_of_mem _ hp)
  | new c args | array es | object ps => exact Node.analysed_children rfl rfl rfl hp
  | binary op l r => exact Node.analysed_children rfl rfl (l := [l, r]) rfl hp
  | sub b i => exact Node.analysed_children rfl rfl (l := [b, i]) rfl hp
  | dot b f => exact Node.analysed_children rfl rfl (l := [b]) rfl hp
  | _ => rcases h with h | h | h <;> cases h

/-- A change of the source is one in the code. -/
theorem AltersIn.own (h : form n = .combined ∨ form n = .assigned ∨ form n = .called)
    (ops : Emits env (.operands (parts n)) σ vs split code σ')
    (hg : (assemble σ n vs).changed? = some g) : AltersIn env σ σ' n g := by
  have hn : n.isAbsent = false := by
    cases n with
    | absent => rcases h with h | h | h <;> cases h
    | _ => rfl
  exact ⟨n, Node.analysed_self hn,
    .change ⟨σ, σ', vs, split, code, .refl σ, .refl σ', ops, rfl⟩ hg⟩

/-- What some code or values change: new temps, and what the source changes. -/
def Accounts (env : Surface) (σ σ' : Scope) (ns : List Node) (g : Node) : Prop :=
  (∃ x ∈ σ.tempsTo σ', g = .name x) ∨ ∃ n ∈ ns, AltersIn env σ σ' n g

theorem Accounts.temp : Accounts env σ σ.nextTemp.2 ns (.name σ.nextTemp.1) := by
  refine .inl ⟨_, ?_, rfl⟩
  rw [Scope.tempsTo_nextTemp]
  exact List.mem_singleton_self _

theorem Accounts.widen (h : Accounts env σ₁ σ₂ ns g) (hσ : σ.Grows σ₁) (h₁ : σ₁.Grows σ₂)
    (hσ' : σ₂.Grows σ') : Accounts env σ σ' ns g := by
  rcases h with ⟨x, hx, hg⟩ | ⟨n, hn, hg⟩
  · refine .inl ⟨x, ?_, hg⟩
    rw [hσ.tempsTo_append (h₁.trans hσ'), h₁.tempsTo_append hσ']
    exact List.mem_append_right _ (List.mem_append_left _ hx)
  · exact .inr ⟨n, hn, hg.widen hσ hσ'⟩

theorem Accounts.mono {ms : List Node} (h : Accounts env σ σ' ns g)
    (hn : ∀ n ∈ ns, AltersIn env σ σ' n g → ∃ m ∈ ms, AltersIn env σ σ' m g) :
    Accounts env σ σ' ms g :=
  h.imp id fun ⟨n, hmem, hg⟩ => hn n hmem hg

/-- An expression accounts for what its operands account for, and for its own change. -/
theorem Accounts.assembled (h : form n = .combined ∨ form n = .assigned ∨ form n = .called)
    (ops : Emits env (.operands (parts n)) σ vs split code σ')
    (hops : ∀ g, (g ∈ Instr.changedPlacesAll code ∨ ∃ v ∈ vs, g ∈ v.changedPlaces) →
      Accounts env σ σ' (parts n) g)
    (hg : g ∈ Instr.changedPlacesAll code ∨ g ∈ (assemble σ n vs).changedPlaces) :
    Accounts env σ σ' [n] g := by
  have hparts : Accounts env σ σ' (parts n) g → Accounts env σ σ' [n] g := fun ha =>
    ha.mono fun p hp ⟨m, hm, hg⟩ =>
      ⟨n, List.mem_singleton_self n, m, analysed_parts h hp hm, hg⟩
  rcases hg with hg | hg
  · exact hparts (hops g (.inl hg))
  · rcases changedPlaces_assemble h ops.operands_length hg with hroot | hvs
    · exact .inr ⟨n, List.mem_singleton_self n, .own h ops hroot⟩
    · exact hparts (hops g (.inr hvs))

/-- What the code and the values of expressions change are new temps, and what the expressions
    change. -/
theorem Emits.places_altered {job : Job} (hret : env.returnValue.changedPlaces = [])
    (h : Emits env job σ vs split code σ') : job.isValue = true →
    ∀ g, (g ∈ Instr.changedPlacesAll code ∨ ∃ v ∈ vs, g ∈ v.changedPlaces) →
      Accounts env σ σ' job.nodes g := by
  induction h with
  | reference x =>
    intro _ g hg
    simp [Instr.changedPlacesAll, Instr.walkAll, changedPlaces_resolve] at hg
  | @literal σ n hf =>
    intro _ g hg
    have hn : n.changedPlaces = [] := by
      cases n with
      | num _ | string _ | atom _ | regexp _ _ => exact changedPlaces_leaf rfl rfl rfl
      | assign op t v => rcases form_assign op t v with ha | ha <;> cases ha.symm.trans hf
      | _ => cases hf
    simp [Instr.changedPlacesAll, Instr.walkAll, hn] at hg
  | @copied σ n hf =>
    intro _ g hg
    have hn : n.isAbsent = false := by
      cases n with
      | absent => cases hf
      | _ => rfl
    simp only [Instr.changedPlacesAll, Instr.walkAll, List.flatMap_nil, List.not_mem_nil, false_or,
      List.mem_singleton, exists_eq_left] at hg
    exact .inr ⟨n, List.mem_singleton_self n, n, Node.analysed_self hn,
      .copied hf (.refl σ) (declares_copyScope σ n).toGrows hg⟩
  | kept hf ops ih =>
    intro _ g hg
    refine Accounts.assembled (hf.elim .inl (.inr ∘ .inl)) ops (ih rfl) ?_
    simpa using hg
  | @captured σ σ' n vs code hf ops ih =>
    intro _ g hg
    have hcases : g = .name σ'.nextTemp.1 ∨
        (g ∈ Instr.changedPlacesAll code ∨ g ∈ (assemble σ n vs).changedPlaces) := by
      simpa [Instr.mem_changedPlaces_set, changedPlaces_leaf (n := .name _) rfl rfl rfl,
        or_left_comm] using hg
    rcases hcases with rfl | hg
    · exact Accounts.temp.widen ops.grows (Scope.grows_nextTemp σ') (.refl _)
    · exact (Accounts.assembled (.inl hf) ops (ih rfl) hg).widen (.refl σ) ops.grows
        (Scope.grows_nextTemp σ')
  | @assigned σ σ' op t v vs code ht ops ih =>
    intro _ g hg
    have hf : form (.assign op t v) = .assigned := if_pos ht
    have hlen := ops.operands_length
    rw [parts, List.length_append] at hlen
    rw [Instr.changedPlacesAll_append, List.mem_append] at hg
    rcases hg with (hg | hg) | ⟨_, hw, hg⟩
    · exact Accounts.assembled (.inr (.inl hf)) ops (ih rfl) (.inl hg)
    · rw [Instr.stat, Instr.mem_changedPlaces_stat] at hg
      exact Accounts.assembled (.inr (.inl hf)) ops (ih rfl) (.inr hg)
    · -- the value changes what the operands of what is assigned to change
      rw [List.mem_singleton.mp hw] at hg
      have hvs := changedPlaces_placeFrom ht (by omega) hg
      exact (ih rfl g (.inr hvs)).mono fun p hp ⟨m, hm, hg⟩ =>
        ⟨_, List.mem_singleton_self _, m, analysed_parts (.inr (.inl hf)) hp hm, hg⟩
  | @called σ σ' c args vs split code ops ih =>
    intro _ g hg
    have hcases : g = .name σ'.nextTemp.1 ∨ (g ∈ Instr.changedPlacesAll code ∨
        g ∈ (assemble σ (.call c args) vs).changedPlaces) := by
      rw [List.append_cons, Instr.changedPlacesAll_append, Instr.changedPlacesAll_append,
        List.mem_append, List.mem_append, callInstr, Instr.mem_changedPlaces_stat, captureInstr,
        Instr.mem_changedPlaces_set, hret] at hg
      simpa [changedPlaces_leaf (n := .name _) rfl rfl rfl, or_assoc, or_comm,
        or_left_comm] using hg
    rcases hcases with rfl | hg
    · exact Accounts.temp.widen ops.grows (Scope.grows_nextTemp σ') (.refl _)
    · exact (Accounts.assembled (.inr (.inr rfl)) ops (ih rfl) hg).widen (.refl σ) ops.grows
        (Scope.grows_nextTemp σ')
  | operandsNil =>
    intro _ g hg
    simp [Instr.changedPlacesAll, Instr.walkAll] at hg
  | @operandsCons σ σ₁ σ₂ n v ns vs split split' code code' head tail ih ih' =>
    intro _ g hg
    have hcases : (g ∈ Instr.changedPlacesAll code ∨ ∃ u ∈ [v], g ∈ u.changedPlaces) ∨
        (g ∈ Instr.changedPlacesAll code' ∨ ∃ u ∈ vs, g ∈ u.changedPlaces) := by
      simp only [Instr.changedPlacesAll_append, List.mem_append] at hg
      simpa [or_assoc, or_left_comm] using hg
    rcases hcases with hg | hg
    · refine ((ih rfl g hg).widen (.refl σ) head.grows tail.grows).mono fun m hm hg => ?_
      exact ⟨m, (List.mem_singleton.mp hm) ▸ List.mem_cons_self, hg⟩
    · refine ((ih' rfl g hg).widen head.grows tail.grows (.refl σ₂)).mono fun m hm hg => ?_
      exact ⟨m, List.mem_cons_of_mem _ hm, hg⟩
  | leads hl => cases hl <;> exact fun h => absurd h Bool.false_ne_true
  | void hv => cases hv <;> exact fun h => absurd h Bool.false_ne_true
  | _ => exact fun h => absurd h Bool.false_ne_true

end

end Walk

end Program

end Resumable
