/-
  Resumable.Proofs.Temps.Numbering — temps are numbered in the order of the program.

  A walk makes temps while it goes through the source, and the statements that set them end up in
  frames, in lists in front of a branch or a loop, and in the lists that these hold.  A walk over
  the program meets them all in the order in which the temps were made.

  The invariant of a derivation is `Numbered`: the temps that its code sets are those made between
  its two scopes, from the first to the last.  Joining two lists joins two intervals, and an
  instruction that holds lists sets what is set in them.

  Main statement: `transform_numbers_temps`.
-/
import Resumable.Proofs.Walk.Names
import Resumable.Proofs.Walk.Captures

namespace Resumable

/-- The name that a plain assignment sets. -/
def Node.set? : Node → Option String
  | assign op (name x) _ => if op = "" then some x else none
  | _ => none

namespace Program

namespace Instr

/-! ## §1. Statements that set a name. -/

/-- The name that a statement sets by a plain assignment. -/
def set? : Instr → Option String
  | leaf command (.stat e) _ => if command = "stat" then e.set? else none
  | _ => none

/-- The names that the statements of a list set, nested ones included, in the order of a walk. -/
def sets (list : List Instr) : List String := (walkAll list).filterMap set?

theorem sets_append (xs ys : List Instr) : sets (xs ++ ys) = sets xs ++ sets ys := by
  unfold sets
  rw [walkAll_append, List.filterMap_append]

theorem sets_stat (e : Node) : sets [stat e] = e.set?.toList := by
  show List.filterMap set? [stat e] = _
  rw [List.filterMap_cons, List.filterMap_nil]
  have hset : (stat e).set? = e.set? := by simp [stat, set?]
  rw [hset]
  cases e.set? <;> rfl

/-- An instruction that is no statement of its own sets what is set inside it. -/
theorem sets_single {i : Instr} (hi : i.set? = none) : sets [i] = sets i.inner := by
  unfold sets
  rw [walkAll_cons, List.filterMap_cons, hi]
  simp [walkAll]

end Instr

/-- Whether a name starts with the stem of the temps. -/
def Naming.hasStem (naming : Naming) (x : String) : Bool :=
  naming.stem.toList.isPrefixOf x.toList

/-- Whether a name is the stem of the temps followed by digits. -/
def Naming.isNumbered (naming : Naming) (x : String) : Bool :=
  let digits := x.toList.drop naming.stem.toList.length
  naming.hasStem x && !digits.isEmpty && digits.all Char.isDigit

theorem Naming.isNumbered_temp (naming : Naming) (k : Nat) :
    naming.isNumbered (naming.stem ++ toString k) = true := by
  have hdigits : (naming.stem ++ toString k).toList = naming.stem.toList ++ Nat.toDigits 10 k := by
    rw [String.toList_append, ← Nat.toList_repr]
    rfl
  have hall : (Nat.toDigits 10 k).all Char.isDigit = true := by
    rw [List.all_eq_true]
    exact fun c hc => Nat.isDigit_of_mem_toDigits (by decide) (by decide) hc
  unfold isNumbered hasStem
  simp only [hdigits, List.drop_left, hall]
  simp [Nat.toDigits_ne_nil]

namespace Walk

open Node (NamesAllIn namesIn_children namesAllIn_cons)
open Instr (sets sets_append sets_stat sets_single)

section

variable {env : Surface} {P : String → Bool} {σ σ' σ₁ σ₂ : Scope} {n v : Node} {vs : List Node}
  {split : Bool} {code xs ys : List Instr}

/-! ## §2. The names that a source sets. -/

/-- A target that is a name in the end was one in the source. -/
theorem placeFrom_name {t : Node} {x : String} (h : placeFrom σ t vs = .name x) : t = .name x := by
  cases t with
  | name y =>
    have hy : σ.resolve y = .name x := h
    unfold Scope.resolve Scope.field at hy
    split at hy
    · cases hy
    · exact hy
  | dot b f =>
    match vs with
    | [] | _ :: _ => cases h
  | sub b i =>
    match vs with
    | [] | [_] | _ :: _ :: _ => cases h
  | _ => exact h

/-- An expression sets what it sets in the source, if anything. -/
theorem set?_assemble {x : String} (h : (assemble σ n vs).set? = some x) : x ∈ n.names := by
  cases n with
  | assign op t v =>
    rw [assemble] at h
    cases ht : placeFrom σ t vs with
    | name y =>
      rw [ht, Node.set?, Option.ite_none_right_eq_some] at h
      rw [placeFrom_name ht, Node.names_children rfl (l := [.name y, v]) rfl]
      obtain ⟨-, hy⟩ := h
      cases hy
      simp
    | _ => simp [ht, Node.set?] at h
  | new c args | dot b f =>
    match vs with
    | [] | _ :: _ => cases h
  | binary op l r | sub b i =>
    match vs with
    | [] | [_] | _ :: _ :: _ => cases h
  | _ => cases h

/-- A value that was not split sets what its expression sets. -/
theorem value_set? (h : Emits env (.expr n) σ [v] false code σ') {x : String}
    (hx : v.set? = some x) : x ∈ n.names := by
  cases h with
  | reference y =>
    unfold Scope.resolve Scope.field at hx
    split at hx <;> cases hx
  | literal hf =>
    cases n with
    | assign op t v => rcases form_assign op t v with ha | ha <;> cases ha.symm.trans hf
    | num _ | string _ | atom _ | regexp _ _ => cases hx
    | _ => cases hf
  | copied hf =>
    cases n with
    | conditional t y m => cases hx
    | seq es => cases hx
    | function f ps b => cases hx
    | assign op t v => rcases form_assign op t v with ha | ha <;> cases ha.symm.trans hf
    | _ => cases hf
  | kept _ ops => exact set?_assemble hx
  | leads hl => cases hl
  | void hv => cases hv

/-- Statements of the source set no temp. -/
theorem sets_source (hn : n.NamesIn (P · = false)) (hv : ∀ x, v.set? = some x → x ∈ n.names) :
    (sets [.stat v]).filter P = [] := by
  rw [sets_stat]
  cases hx : v.set? with
  | none => rfl
  | some x =>
    have hP : P x = false := hn x (hv x hx)
    simp [hP]

/-! ## §3. Intervals of temps. -/

/-- The temps that a list sets are those made between two scopes, in their order. -/
def Numbered (P : String → Bool) (σ σ' : Scope) (list : List Instr) : Prop :=
  (sets list).filter P = σ.tempsTo σ'

/-- No temp was made and none is set. -/
theorem Numbered.none (hx : (sets xs).filter P = []) (hσ : σ.Declares σ') :
    Numbered P σ σ' xs := by
  unfold Numbered
  rw [hx, hσ.tempsTo]

/-- Lists made one after the other. -/
theorem Numbered.append (h : Numbered P σ σ₁ xs) (h' : Numbered P σ₁ σ₂ ys) (hσ : σ.Grows σ₁)
    (hσ' : σ₁.Grows σ₂) : Numbered P σ σ₂ (xs ++ ys) := by
  unfold Numbered at *
  rw [sets_append, List.filter_append, h, h', hσ.tempsTo_append hσ']

/-- The temp made next, set by a statement. -/
theorem Numbered.temp (hP : P (σ.temp σ.temps) = true) (value : Node) :
    Numbered P σ σ.nextTemp.2 [.set (.name σ.nextTemp.1) value] := by
  have hset : sets [.set (.name σ.nextTemp.1) value] = [σ.nextTemp.1] := sets_stat _
  unfold Numbered
  rw [hset, Scope.tempsTo_nextTemp]
  exact List.filter_eq_self.mpr (List.forall_mem_singleton.mpr hP)

/-- An instruction that holds lists sets what they set. -/
theorem Numbered.hold {i : Instr} (hi : i.set? = Option.none) (h : Numbered P σ σ' i.inner) :
    Numbered P σ σ' [i] := by
  unfold Numbered
  rw [sets_single hi]
  exact h

/-- A leaf that sets no name. -/
theorem Numbered.leaf {i : Instr} (hi : i.set? = Option.none) (hin : i.inner = []) :
    Numbered P σ σ [i] := by
  refine .hold hi (.none ?_ (.refl σ))
  rw [hin]
  rfl

theorem set?_leaf {command : String} (h : command ≠ "stat") (c : Node) (a : Bool) :
    (Instr.leaf command c a).set? = none := by
  unfold Instr.set?
  split
  · next heq =>
    cases heq
    exact if_neg h
  · rfl

theorem isPassed_ne_stat (h : isPassed n = true) : n.tag ≠ "stat" := by
  cases n <;> cases h <;> simp [Node.tag, Node.kind?, Kind.tag]

/-! ## §4. Derivations. -/

/-- A walk numbers its temps in the order in which its code sets them. -/
theorem Emits.numbered {job : Job} (h : Emits env job σ vs split code σ')
    (hP : ∀ k, P (σ.temp k) = true) (hn : NamesAllIn (P · = false) job.nodes) :
    Numbered P σ σ' code := by
  -- the temps of a later scope are called alike
  have hlater : ∀ {σ σ₁ : Scope}, σ.Grows σ₁ → (∀ k, P (σ.temp k) = true) →
      ∀ k, P (σ₁.temp k) = true := fun hσ h k => by
    rw [hσ.temp]
    exact h k
  induction h with
  | reference | literal | operandsNil | stmtsNil | bindingsNil | void => exact .none rfl (.refl _)
  | copied => exact .none rfl (declares_copyScope _ _)
  | kept _ _ ih => exact ih hP (parts_names (namesIn_one.mp hn))
  | captured _ ops ih =>
    exact (ih hP (parts_names (namesIn_one.mp hn))).append
      (.temp (hlater ops.grows hP _) _) ops.grows (Scope.grows_nextTemp _)
  | assigned _ ops ih =>
    refine (ih hP (parts_names (namesIn_one.mp hn))).append (.none ?_ (.refl _)) ops.grows (.refl _)
    exact sets_source (namesIn_one.mp hn) fun _ hx => set?_assemble hx
  | @called σ σ' c args vs split code ops ih =>
    have hcall : Numbered P σ' σ' [callInstr env σ c args vs] :=
      .leaf (set?_leaf (by decide) _ _) rfl
    have htemp : Numbered P σ' σ'.nextTemp.2 [captureInstr env σ'.nextTemp.1] :=
      .temp (hlater ops.grows hP _) _
    exact (ih hP (parts_names (namesIn_one.mp hn))).append
      (hcall.append htemp (.refl _) (Scope.grows_nextTemp _)) ops.grows (Scope.grows_nextTemp _)
  | operandsCons head tail ih ih' | stmtsCons head tail ih ih' =>
    have hn := namesAllIn_cons.mp hn
    exact (ih hP (namesIn_one.mpr hn.1)).append (ih' (hlater head.grows hP) hn.2) head.grows
      tail.grows
  | @effect σ σ' n v split code value ih =>
    -- a value that was split is not stated again, another sets what the source sets
    refine (ih hP hn).append (.none ?_ (.refl _)) value.grows (.refl _)
    cases split with
    | true => rfl
    | false => exact sets_source (namesIn_one.mp hn) fun _ hx => value_set? value hx
  | leads hl _ ih => exact ih hP (hl.names hn)
  | test value ih =>
    exact (ih hP hn).append (.leaf (set?_leaf (by decide) _ _) rfl) value.grows (.refl _)
  | @branch σ σ₁ σ₂ σ₃ c v yes no ys ns cs ysp nsp code yl nl cond yesDone noDone ih ih₁ ih₂ =>
    rw [Job.nodes, namesIn_one, namesIn_children rfl (l := [c, yes, no]) rfl, namesAllIn_cons,
      namesAllIn_cons] at hn
    obtain ⟨hc, hyes, hno⟩ := hn
    have hP₁ := hlater cond.grows hP
    have hregions := (ih₁ hP₁ (namesIn_one.mpr hyes)).append (ih₂ (hlater yesDone.grows hP₁) hno)
      yesDone.grows noDone.grows
    exact (ih hP (namesIn_one.mpr hc)).append (.hold rfl hregions) cond.grows
      (yesDone.grows.trans noDone.grows)
  | @loop σ σ₁ σ₂ σ₃ σ₄ init cond step body c e is bs _ _ _ _ il tl sl bl initDone testDone
      stepDone bodyDone ih ih₁ ih₂ ih₃ =>
    rw [Job.nodes, namesIn_one, namesIn_children rfl (l := [init, cond, step, body]) rfl,
      namesAllIn_cons, namesAllIn_cons, namesAllIn_cons] at hn
    obtain ⟨hinit, hcond, hstep, hbody⟩ := hn
    have hP₁ := hlater initDone.grows hP
    have hP₂ := hlater testDone.grows hP₁
    have hahead := testDone.grows.trans stepDone.grows
    -- test, step and body are made and met in this order
    have hparts := ((ih₁ hP₁ (namesIn_one.mpr hcond)).append (ih₂ hP₂ (namesIn_one.mpr hstep))
      testDone.grows stepDone.grows).append (ih₃ (hlater stepDone.grows hP₂) hbody) hahead
      bodyDone.grows
    exact (ih hP (namesIn_one.mpr hinit)).append (.hold rfl hparts) initDone.grows
      (hahead.trans bodyDone.grows)
  | declaration body ih =>
    exact .hold rfl (ih hP ((namesIn_children rfl rfl).mp (namesIn_one.mp hn)))
  | passed hp =>
    refine .none ?_ (declares_copyScope _ _)
    rw [sets_single (set?_leaf (isPassed_ne_stat hp) _ _)]
    rfl
  | @bare σ σ' x ds vs split code rest ih =>
    have hx := Scope.declares_declare σ x
    have hrest := ih (hlater hx.toGrows hP) (namesAllIn_cons.mp hn).2
    have hset : Numbered P σ (σ.declare x) [.set (σ.field x) .null] := .none rfl hx
    exact hset.append hrest hx.toGrows rest.grows
  | @bound σ σ₁ σ₂ x init v ds vs split split' code code' value rest ih ih' =>
    have hx := Scope.declares_declare σ x
    have hn := namesAllIn_cons.mp hn
    have hP₁ := hlater hx.toGrows hP
    have hfront : Numbered P σ (σ.declare x) (placeholder split (σ.field x)) := by
      refine .none ?_ hx
      cases split <;> rfl
    have hvalue := hfront.append (ih hP₁ (namesIn_one.mpr hn.1)) hx.toGrows value.grows
    have hset : Numbered P σ₁ σ₁ [.set (σ.field x) v] := .leaf rfl rfl
    have hrest := hset.append (ih' (hlater value.grows hP₁) hn.2) (.refl _) rest.grows
    exact hvalue.append hrest (hx.toGrows.trans value.grows) rest.grows

end

end Walk

/-! ## §5. Whole programs. -/

/-- A walk over a program meets the statements that set its temps in the order of their numbers,
    one for each. -/
theorem transform_numbers_temps (naming : Naming) (isAsync : String → Bool) (unit : Node)
    (t : Transformed) (h : (transform naming isAsync unit).1 = .ok t)
    (hfree : ∀ x ∈ unit.names, naming.isNumbered x = false) :
    (Instr.sets t.program).filter naming.isNumbered =
      (List.range t.stats.temps).map fun k => naming.stem ++ toString k := by
  obtain ⟨body, σ, rfl, hd⟩ := transform_emits h
  obtain ⟨vs, split, he⟩ := hd.emits
  have hstart := naming.declares_scope body
  have htemp : (naming.scope body).temp = fun k => naming.stem ++ toString k := by
    funext k
    unfold Scope.temp
    rw [hstart.stem]
  have hnames : Node.NamesAllIn (naming.isNumbered · = false) body :=
    (Node.namesIn_children rfl rfl).mp hfree
  have hnumbered := he.numbered (P := naming.isNumbered)
    (fun k => by rw [htemp]; exact naming.isNumbered_temp k) hnames
  unfold Walk.Numbered Scope.tempsTo at hnumbered
  -- a walk starts without temps
  rw [hstart.sameTemps, htemp] at hnumbered
  rw [hnumbered, hd.stats, List.range_eq_range']
  rfl

/-- Temps in front of a branch, in both its lists and in the three lists of a loop:
    `if (f(g())) y = h() + 1; else for (var i = f(); h(i); i = k(i)) f(i);`. -/
theorem transform_numbers_temps_of_branch :
    let call (f : String) (as : List Node) : Node := .call (.name f) as
    let unit : Node := .toplevel [.ifElse (call "f" [call "g" []])
      (.stat (.assign "" (.name "y") (.binary "+" (call "h" []) (.num "1"))))
      (.forLoop (.var [("i", call "f" [])]) (call "h" [.name "i"])
        (.assign "" (.name "i") (call "k" [.name "i"])) (.stat (call "f" [.name "i"])))]
    ∃ t, (transform {} (fun _ => false) unit).1 = .ok t ∧
      (∀ x ∈ unit.names, Naming.isNumbered {} x = false) ∧
      (Instr.sets t.program).filter (Naming.isNumbered {}) =
        (List.range t.stats.temps).map fun k => "__DrutaTemp_" ++ toString k := by
  intro call unit
  obtain ⟨t, ht⟩ : ∃ t, (transform {} (fun _ => false) unit).1 = .ok t :=
    exists_of_isOk (by decide +kernel)
  have hfree : ∀ x ∈ unit.names, Naming.isNumbered {} x = false := by decide +kernel
  exact ⟨t, ht, hfree, transform_numbers_temps {} (fun _ => false) unit t ht hfree⟩

end Program

end Resumable
