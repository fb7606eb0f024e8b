/-
  Resumable.Proofs.Temps.Reads — temps are set before they are read.

  A program reads a temp where a payload or the condition of a branch mentions it.  The statement
  that sets it stands before, in the same list of instructions: a branch, a part of a loop or a
  function body that may not run sets nothing that is read elsewhere.

  `Backed` says so of one list, going through it with the names that are set so far, and `Settled`
  of a list and all those inside it.  The invariant of a derivation adds the values: the temps they
  mention are set by its code, in the list itself (`Emits.settled`).

  Main statement: `transform_sets_temps_first`.
-/
import Resumable.Proofs.Meaning.Preservation
import Resumable.Proofs.Temps.Numbering
import Resumable.Proofs.Walk.Dotted
import Resumable.Proofs.Walk.Layout

namespace Resumable.Program

namespace Instr

/-! ## §1. Names that an instruction reads. -/

/-- The names that a payload or a condition mentions. -/
def mentions : Instr → List String
  | leaf _ code _ => code.names
  | branch cond _ _ _ _ _ _ => cond.names
  | loop _ _ _ _ _ _ => []
  | defun _ _ _ => []

/-- The names that an instruction reads: those it mentions, without the target that it sets. -/
def reads (i : Instr) : List String :=
  match i.set? with
  | some x => i.mentions.erase x
  | none => i.mentions

theorem mem_mentions {i : Instr} {x : String} (h : x ∈ i.reads) : x ∈ i.mentions := by
  unfold reads at h
  split at h
  · exact List.mem_of_mem_erase h
  · exact h

theorem mentions_stat (e : Node) : (stat e).mentions = e.names := by
  show (Node.stat e).names = e.names
  rw [Node.names_children rfl (l := [e]) rfl, List.flatMap_singleton]

theorem set?_name (x : String) (value : Node) : (set (.name x) value).set? = some x := by
  simp [set, stat, set?, Node.set?]

theorem reads_set (x : String) (value : Node) : (set (.name x) value).reads = value.names := by
  unfold reads
  rw [set?_name]
  show (set (.name x) value).mentions.erase x = _
  rw [set, mentions_stat, Node.names_children rfl (l := [.name x, value]) rfl]
  simp

theorem inner_eq (i : Instr) : i.inner = i.lists.flatten := by
  cases i <;> simp [inner, lists]

/-! ## §2. Lists that set before they read. -/

variable {P : String → Prop} {known known' : List String} {i : Instr} {xs ys : List Instr}

/-- The names that the statements of a list set, nested ones left out. -/
def defines (list : List Instr) : List String := list.filterMap set?

/-- Every instruction of a list reads names that are known or set before it in the list, as far as
    the names have a property. -/
def Backed (P : String → Prop) (known : List String) : List Instr → Prop
  | [] => True
  | i :: rest => (∀ x ∈ i.reads, P x → x ∈ known) ∧ Backed P (known ++ i.set?.toList) rest

theorem defines_cons (i : Instr) (rest : List Instr) :
    defines (i :: rest) = i.set?.toList ++ defines rest := by
  unfold defines
  rw [List.filterMap_cons]
  cases i.set? <;> rfl

theorem defines_append (xs ys : List Instr) : defines (xs ++ ys) = defines xs ++ defines ys :=
  List.filterMap_append

theorem Backed.mono (h : Backed P known xs) (hk : known ⊆ known') : Backed P known' xs := by
  induction xs generalizing known known' with
  | nil => trivial
  | cons i rest ih =>
    obtain ⟨hi, hrest⟩ := h
    exact ⟨fun x hx hP => hk (hi x hx hP), ih hrest (List.append_subset.mpr
      ⟨List.subset_append_of_subset_left _ hk, List.subset_append_right _ _⟩)⟩

theorem backed_append :
    Backed P known (xs ++ ys) ↔ Backed P known xs ∧ Backed P (known ++ defines xs) ys := by
  induction xs generalizing known with
  | nil => simp [Backed, defines]
  | cons i rest ih =>
    rw [List.cons_append, Backed, Backed, ih, defines_cons, ← List.append_assoc, and_assoc]

/-- What an instruction reads is set by one before it. -/
theorem Backed.found {list before after : List Instr} (h : Backed P [] list)
    (hlist : list = before ++ i :: after) {x : String} (hx : x ∈ i.reads) (hP : P x) :
    ∃ j ∈ before, j.set? = some x := by
  rw [hlist, backed_append] at h
  have hmem : x ∈ [] ++ defines before := h.2.1 x hx hP
  exact List.mem_filterMap.mp hmem

/-- A list that sets before it reads, as all those inside it do. -/
structure Settled (P : String → Prop) (list : List Instr) : Prop where
  here : Backed P [] list
  inside : Every (fun i => ∀ l ∈ i.lists, Backed P [] l) list

theorem Settled.nil : Settled P [] := ⟨trivial, every_nil⟩

theorem Settled.append (h : Settled P xs) (h' : Settled P ys) : Settled P (xs ++ ys) :=
  ⟨backed_append.mpr ⟨h.here, h'.here.mono (List.nil_subset _)⟩,
    every_append.mpr ⟨h.inside, h'.inside⟩⟩

theorem every_flatten {Q : Instr → Prop} {lists : List (List Instr)}
    (h : ∀ l ∈ lists, Every Q l) : Every Q lists.flatten := by
  induction lists with
  | nil => exact every_nil
  | cons l ls ih =>
    obtain ⟨hl, hls⟩ := List.forall_mem_cons.mp h
    rw [List.flatten_cons]
    exact every_append.mpr ⟨hl, ih hls⟩

/-- An instruction behind a list, which reads what the list sets and holds lists of its own. -/
theorem Settled.snoc (h : Settled P xs) (hi : ∀ x ∈ i.reads, P x → x ∈ defines xs)
    (hl : ∀ l ∈ i.lists, Settled P l) : Settled P (xs ++ [i]) := by
  refine ⟨backed_append.mpr ⟨h.here, hi, trivial⟩, every_append.mpr ⟨h.inside, ?_⟩⟩
  refine every_single.mpr ⟨fun l hmem => (hl l hmem).here, ?_⟩
  -- what is inside the instruction is inside one of its lists
  rw [inner_eq]
  exact every_flatten fun l hmem => (hl l hmem).inside

theorem Settled.single (hi : ∀ x ∈ i.reads, ¬ P x) (hl : ∀ l ∈ i.lists, Settled P l) :
    Settled P [i] :=
  Settled.nil.snoc (fun x hx hP => absurd hP (hi x hx)) hl

end Instr

namespace Walk

open Node (NamesAllIn namesIn_name namesIn_children namesIn_leaf namesAllIn_nil namesAllIn_cons)
open Instr (Settled defines defines_append mem_mentions mentions_stat reads_set set?_name)

section

variable {env : Surface} {P : String → Prop} {σ σ' : Scope} {n v : Node} {ns vs : List Node}
  {split : Bool} {code code' : List Instr}

/-! ## §3. Values. -/

/-- The names of a value are set by some code, as far as they have a property. -/
def Ready (P : String → Prop) (code : List Instr) (x : String) : Prop := P x → x ∈ defines code

theorem Ready.source {ns : List Node} (h : NamesAllIn (¬ P ·) ns) : NamesAllIn (Ready P code) ns :=
  fun n hn x hx hP => absurd hP (h n hn x hx)

theorem Ready.left (h : NamesAllIn (Ready P code) vs) (rest : List Instr) :
    NamesAllIn (Ready P (code ++ rest)) vs := by
  intro v hv x hx hP
  rw [defines_append]
  exact List.mem_append_left _ (h v hv x hx hP)

theorem Ready.right (h : NamesAllIn (Ready P code) vs) (front : List Instr) :
    NamesAllIn (Ready P (front ++ code)) vs := by
  intro v hv x hx hP
  rw [defines_append]
  exact List.mem_append_right _ (h v hv x hx hP)

/-- A statement behind the code that its expression needs. -/
theorem Settled.stat (h : Settled P code) (hv : v.NamesIn (Ready P code)) :
    Settled P (code ++ [.stat v]) := by
  refine h.snoc (fun x hx hP => ?_) nofun
  have hmem := mem_mentions hx
  rw [mentions_stat] at hmem
  exact hv x hmem hP

/-- A temp is set behind the code that its value needs. -/
theorem Settled.temp (h : Settled P code) (hv : v.NamesIn (Ready P code)) (temp : String) :
    Settled P (code ++ [.set (.name temp) v]) := by
  refine h.snoc (fun x hx hP => ?_) nofun
  rw [reads_set] at hx
  exact hv x hx hP

/-- The temp that was set last. -/
theorem Ready.temp (temp : String) (value : Node) :
    NamesAllIn (Ready P (code ++ [.set (.name temp) value])) [.name temp] := by
  refine namesIn_one.mpr (namesIn_name.mpr fun _ => ?_)
  rw [defines_append]
  refine List.mem_append_right _ ?_
  rw [defines, List.filterMap_cons, set?_name]
  exact List.mem_cons_self

/-- The field of a name is set to a value. -/
theorem Settled.field (h : Settled P code) (hσ : ¬ P σ.container) (x : String)
    (hv : v.NamesIn (Ready P code)) : Settled P (code ++ [.set (σ.field x) v]) := by
  refine Settled.stat h ((namesIn_children rfl (l := [σ.field x, v]) rfl).mpr ?_)
  exact namesAllIn_cons.mpr ⟨Scope.namesIn_field (fun hP => absurd hP hσ) x, namesIn_one.mpr hv⟩

/-- A leaf with a copy or a value. -/
theorem Settled.leaf (h : Settled P code) (command : String) (async : Bool)
    (hv : v.NamesIn (Ready P code)) : Settled P (code ++ [.leaf command v async]) :=
  h.snoc (fun x hx hP => hv x (mem_mentions hx) hP) nofun

/-! ## §4. Derivations. -/

/-- What a walk gives: code that sets temps before it reads them, and values whose temps it sets. -/
structure Prepared (P : String → Prop) (code : List Instr) (vs : List Node) : Prop where
  settled : Settled P code
  ready : NamesAllIn (Ready P code) vs

theorem Prepared.nil (h : NamesAllIn (¬ P ·) vs) : Prepared P [] vs := ⟨.nil, Ready.source h⟩

/-- What is put together from the values of operands is ready. -/
theorem Prepared.assembled (h : Prepared P code vs) (hn : n.NamesIn (¬ P ·))
    (hσ : ¬ P σ.container) : (assemble σ n vs).NamesIn (Ready P code) :=
  assemble_names (fun x hx hP => absurd hP (hn x hx)) h.ready fun hP => absurd hP hσ

/-- A walk sets temps before it reads them. -/
theorem Emits.prepared {job : Job} (h : Emits env job σ vs split code σ')
    (henv : env.returnValue.NamesIn (¬ P ·)) (hσ : ¬ P σ.container)
    (hn : NamesAllIn (¬ P ·) job.nodes) : Prepared P code vs := by
  have hlater : ∀ {σ σ₁ : Scope}, σ.Grows σ₁ → ¬ P σ.container → ¬ P σ₁.container := by
    intro σ σ₁ hg h
    rw [hg.container]
    exact h
  induction h with
  | reference x =>
    exact .nil (namesIn_one.mpr (Scope.namesIn_resolve hσ (namesIn_name.mp (namesIn_one.mp hn))))
  | literal => exact .nil hn
  | copied => exact .nil (namesIn_one.mpr (copy_names (namesIn_one.mp hn) hσ))
  | kept _ _ ih =>
    have hops := ih hσ (parts_names (namesIn_one.mp hn))
    exact ⟨hops.settled, namesIn_one.mpr (hops.assembled (namesIn_one.mp hn) hσ)⟩
  | captured _ _ ih =>
    -- the value is moved into the statement that sets the temp
    have hops := ih hσ (parts_names (namesIn_one.mp hn))
    exact ⟨Settled.temp hops.settled (hops.assembled (namesIn_one.mp hn) hσ) _, Ready.temp _ _⟩
  | @assigned σ σ' op t v vs code _ _ ih =>
    have hn := namesIn_one.mp hn
    have hops := ih hσ (parts_names hn)
    refine ⟨Settled.stat hops.settled (hops.assembled hn hσ), Ready.left (namesIn_one.mpr ?_) _⟩
    -- the value stands for what was assigned to, with the values of its operands
    rw [namesIn_children rfl (l := [t, v]) rfl, namesAllIn_cons] at hn
    exact placeFrom_names (fun x hx hP => absurd hP (hn.1 x hx)) hops.ready
      fun hP => absurd hP hσ
  | @called σ σ' c args vs split code _ ih =>
    have hops := ih hσ (parts_names (namesIn_one.mp hn))
    have hcall : Settled P (code ++ [callInstr env σ c args vs]) := by
      refine Settled.leaf hops.settled _ _ ((namesIn_children rfl (l := [_]) rfl).mpr ?_)
      exact namesIn_one.mpr (hops.assembled (namesIn_one.mp hn) hσ)
    have hset := Settled.temp hcall (namesIn_one.mp (Ready.source (namesIn_one.mpr henv)))
      σ'.nextTemp.1
    have hready : NamesAllIn (Ready P ((code ++ [callInstr env σ c args vs]) ++
        [.set (.name σ'.nextTemp.1) env.returnValue])) [.name σ'.nextTemp.1] := Ready.temp _ _
    rw [List.append_assoc] at hset hready
    exact ⟨hset, hready⟩
  | operandsNil | stmtsNil | bindingsNil => exact .nil namesAllIn_nil
  | void hv => exact .nil (namesIn_one.mpr (namesIn_leaf rfl rfl))
  | @operandsCons σ σ₁ σ₂ n v ns vs split split' code code' head tail ih ih' =>
    have hn := namesAllIn_cons.mp hn
    have hhead := ih hσ (namesIn_one.mpr hn.1)
    have htail := ih' (hlater head.grows hσ) hn.2
    refine ⟨hhead.settled.append htail.settled, namesAllIn_cons.mpr ⟨?_, Ready.right htail.ready _⟩⟩
    exact namesIn_one.mp (Ready.left hhead.ready _)
  | stmtsCons head tail ih ih' =>
    have hn := namesAllIn_cons.mp hn
    have hhead := ih hσ (namesIn_one.mpr hn.1)
    exact ⟨hhead.settled.append (ih' (hlater head.grows hσ) hn.2).settled, namesAllIn_nil⟩
  | @effect σ σ' n v split code value ih =>
    have hvalue := ih hσ hn
    refine ⟨?_, Ready.left hvalue.ready _⟩
    cases split with
    | true =>
      rw [unsplitStat, if_pos rfl, List.append_nil]
      exact hvalue.settled
    | false => exact Settled.stat hvalue.settled (namesIn_one.mp hvalue.ready)
  | leads hl _ ih => exact ih hσ (hl.names hn)
  | test value ih =>
    have hvalue := ih hσ hn
    exact ⟨Settled.leaf hvalue.settled _ _ (namesIn_one.mp hvalue.ready), Ready.left hvalue.ready _⟩
  | @branch σ σ₁ σ₂ σ₃ c v yes no ys ns cs ysp nsp code yl nl cond yesDone noDone ih ih₁ ih₂ =>
    rw [Job.nodes, namesIn_one, namesIn_children rfl (l := [c, yes, no]) rfl, namesAllIn_cons,
      namesAllIn_cons] at hn
    obtain ⟨hc, hyes, hno⟩ := hn
    have hσ₁ := hlater cond.grows hσ
    have hcond := ih hσ (namesIn_one.mpr hc)
    refine ⟨hcond.settled.snoc (fun x hx hP => ?_) ?_, namesAllIn_nil⟩
    · exact namesIn_one.mp hcond.ready x (mem_mentions hx) hP
    · -- the two lists are settled by themselves
      exact List.forall_mem_cons.mpr ⟨(ih₁ hσ₁ (namesIn_one.mpr hyes)).settled,
        List.forall_mem_singleton.mpr (ih₂ (hlater yesDone.grows hσ₁) hno).settled⟩
  | @loop σ σ₁ σ₂ σ₃ σ₄ init cond step body c e is bs _ _ _ _ il tl sl bl initDone testDone
      stepDone bodyDone ih ih₁ ih₂ ih₃ =>
    rw [Job.nodes, namesIn_one, namesIn_children rfl (l := [init, cond, step, body]) rfl,
      namesAllIn_cons, namesAllIn_cons, namesAllIn_cons] at hn
    obtain ⟨hinit, hcond, hstep, hbody⟩ := hn
    have hσ₁ := hlater initDone.grows hσ
    have hσ₂ := hlater testDone.grows hσ₁
    refine ⟨(ih hσ (namesIn_one.mpr hinit)).settled.snoc
      (fun _ hx => absurd hx List.not_mem_nil) ?_, namesAllIn_nil⟩
    exact List.forall_mem_cons.mpr ⟨(ih₁ hσ₁ (namesIn_one.mpr hcond)).settled,
      List.forall_mem_cons.mpr ⟨(ih₂ hσ₂ (namesIn_one.mpr hstep)).settled,
        List.forall_mem_singleton.mpr (ih₃ (hlater stepDone.grows hσ₂) hbody).settled⟩⟩
  | declaration body ih =>
    have hlist := (ih hσ ((namesIn_children rfl rfl).mp (namesIn_one.mp hn))).settled
    exact ⟨.single (fun _ hx => absurd hx List.not_mem_nil) (List.forall_mem_singleton.mpr hlist),
      namesAllIn_nil⟩
  | passed =>
    have hcopy := copy_names (namesIn_one.mp hn) hσ
    exact ⟨.single (fun x hx => hcopy x (mem_mentions hx)) fun _ hl =>
      absurd hl List.not_mem_nil, namesAllIn_nil⟩
  | @bare σ σ' x ds vs split code rest ih =>
    have hrest := ih (hlater (Scope.declares_declare σ x).toGrows hσ) (namesAllIn_cons.mp hn).2
    exact ⟨(Settled.field .nil hσ x (namesIn_leaf rfl rfl)).append hrest.settled, namesAllIn_nil⟩
  | @bound σ σ₁ σ₂ x init v ds vs split split' code code' value rest ih ih' =>
    have hn := namesAllIn_cons.mp hn
    have hσ₁ := hlater (Scope.declares_declare σ x).toGrows hσ
    have hvalue := ih hσ₁ (namesIn_one.mpr hn.1)
    have hrest := ih' (hlater value.grows hσ₁) hn.2
    have hfront : Settled P (placeholder split (σ.field x)) := by
      cases split with
      | true => exact Settled.field .nil hσ x (namesIn_leaf rfl rfl)
      | false => exact .nil
    -- the value is read behind the null in front of it and its own code
    have hset := Settled.field (hfront.append hvalue.settled) hσ x
      (namesIn_one.mp (Ready.right hvalue.ready _))
    have hall := hset.append hrest.settled
    rw [← List.append_cons] at hall
    exact ⟨hall, namesAllIn_nil⟩

end

end Walk

/-! ## §5. Whole programs. -/

/-- A dotted path mentions its root. -/
theorem Naming.dotted_names (naming : Naming) :
    (dotted naming.returnValue).names = (Meaning.slot naming).head?.toList := by
  refine dotted_of (P := fun xs n => n.names = xs.head?.toList) _ Node.names_name ?_
  intro x xs n f h
  rw [Node.names_children rfl (l := [n]) rfl, List.flatMap_singleton, h]
  rfl

/-- In every list of a program, at any depth, an instruction that reads a temp stands behind one
    that sets it. -/
theorem transform_sets_temps_first (naming : Naming) (isAsync : String → Bool) (unit : Node)
    (t : Transformed) (h : (transform naming isAsync unit).1 = .ok t)
    (hunit : ∀ x ∈ unit.names, naming.hasStem x = false)
    (hcontainer : naming.hasStem naming.container = false)
    (hroot : ∀ x ∈ (Meaning.slot naming).head?, naming.hasStem x = false) :
    ∀ list ∈ t.program :: (Instr.walkAll t.program).flatMap Instr.lists,
      ∀ before i after, list = before ++ i :: after →
        ∀ x ∈ i.reads, naming.hasStem x = true → ∃ j ∈ before, j.set? = some x := by
  obtain ⟨body, σ, rfl, hd⟩ := transform_emits h
  obtain ⟨vs, split, he⟩ := hd.emits
  have hfree : ∀ {x}, naming.hasStem x = false → ¬ naming.hasStem x = true := by
    intro x hx
    simp [hx]
  have hreturn : (Naming.dotted naming.returnValue).NamesIn (¬ naming.hasStem · = true) := by
    intro x hx
    rw [naming.dotted_names, Option.mem_toList] at hx
    exact hfree (hroot x hx)
  have hstart : ¬ naming.hasStem (naming.scope body).container = true := by
    rw [(naming.declares_scope body).container]
    exact hfree hcontainer
  have hcode := (he.prepared (P := (naming.hasStem · = true)) hreturn hstart
    ((Node.namesIn_children rfl rfl).mp fun x hx => hfree (hunit x hx))).settled
  intro list hlist before i after heq x hx hP
  rcases List.mem_cons.mp hlist with rfl | hlist
  · exact hcode.here.found heq hx hP
  · obtain ⟨j, hj, hl⟩ := List.mem_flatMap.mp hlist
    exact (hcode.inside j hj list hl).found heq hx hP

/-- Temps of a condition read by a branch, of operands read in its lists, and of what is assigned to
    inside a loop: `if (f(g()) + 1) a[h()] = k() + x; else for (; h(x); ) b = a[k()] = f();`. -/
theorem transform_sets_temps_first_of_branch :
    let call (f : String) (as : List Node) : Node := .call (.name f) as
    let unit : Node := .toplevel [.ifElse (.binary "+" (call "f" [call "g" []]) (.num "1"))
      (.stat (.assign "" (.sub (.name "a") (call "h" []))
        (.binary "+" (call "k" []) (.name "x"))))
      (.forLoop .absent (call "h" [.name "x"]) .absent
        (.stat (.assign "" (.name "b") (.assign "" (.sub (.name "a") (call "k" []))
          (call "f" [])))))]
    ∃ t, (transform {} (fun _ => false) unit).1 = .ok t ∧
      (∀ x ∈ unit.names, Naming.hasStem {} x = false) ∧
      Naming.hasStem {} "$$locals" = false ∧
      (∀ x ∈ (Meaning.slot {}).head?, Naming.hasStem {} x = false) ∧
      ∀ list ∈ t.program :: (Instr.walkAll t.program).flatMap Instr.lists,
        ∀ before i after, list = before ++ i :: after →
          ∀ x ∈ i.reads, Naming.hasStem {} x = true → ∃ j ∈ before, j.set? = some x := by
  intro call unit
  obtain ⟨t, ht⟩ : ∃ t, (transform {} (fun _ => false) unit).1 = .ok t :=
    exists_of_isOk (by decide +kernel)
  have hunit : ∀ x ∈ unit.names, Naming.hasStem {} x = false := by decide +kernel
  have hcontainer : Naming.hasStem {} "$$locals" = false := by decide +kernel
  have hroot : ∀ x ∈ (Meaning.slot {}).head?, Naming.hasStem {} x = false := by
    rw [Meaning.slot_default]
    decide +kernel
  exact ⟨t, ht, hunit, hcontainer, hroot,
    transform_sets_temps_first {} (fun _ => false) unit t ht hunit hcontainer hroot⟩

end Resumable.Program
