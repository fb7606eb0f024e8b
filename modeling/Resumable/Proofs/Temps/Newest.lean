/-
  Resumable.Proofs.Temps.Newest — where the temp that was made last is set.

  A temp is made for a call or for what is put together from the values of calls, and the statement
  that sets it is placed behind the call.  `located` walks over a program like `walk` and says of
  each instruction whether it stands in a function declaration, so a list has a last call and that
  call stands in the list itself or in a function that is declared in it.

  The invariant of a derivation is `Newest`: the temp made last between its two scopes is set where
  the last call of its code stands.  Code behind other code has the last word if it has a call, and
  leaves the temp alone if it has none.

  Main statements:
    * `Emits.newest`       — the invariant holds of every derivation;
    * `Emits.sides_named`  — what stands for the sides of branches are temps.
-/
import Resumable.Proofs.Execution.Agreement
import Resumable.Proofs.Temps.Numbering
import Resumable.Proofs.Walk.Controls
import Resumable.Proofs.Walk.Unsplit

namespace Resumable

namespace Program

namespace Instr

/-! ## §1. Instructions by their function. -/

mutual

/-- An instruction and all those inside it, in program order, each with whether it stands in a
    function declaration, for an instruction that does or does not itself. -/
def located (inside : Bool) : Instr → List (Bool × Instr)
  | i@(leaf _ _ _) => [(inside, i)]
  | i@(branch _ yes no _ _ _ _) => (inside, i) :: (locatedAll inside yes ++ locatedAll inside no)
  | i@(loop _ test step body _ _) =>
      (inside, i) :: (locatedAll inside test ++ locatedAll inside step ++ locatedAll inside body)
  | i@(defun _ _ body) => (inside, i) :: locatedAll true body

/-- All instructions of a list, nested ones included. -/
def locatedAll (inside : Bool) : List Instr → List (Bool × Instr)
  | [] => []
  | i :: rest => located inside i ++ locatedAll inside rest

end

/-- Whether the last call stands in a function declaration, if there is a call. -/
def lastCall? (ps : List (Bool × Instr)) : Option Bool :=
  (ps.filter fun p => p.2.command == "call").getLast?.map (·.1)

/-- The lists of a branch, with the temps that stand for them. -/
def sides : Instr → List (List Instr × Option String)
  | branch _ yes no _ _ yesTemp noTemp => [(yes, yesTemp), (no, noTemp)]
  | _ => []

section

variable {inside : Bool} {xs ys list : List Instr} {ps qs : List (Bool × Instr)}

theorem locatedAll_append (inside : Bool) (xs ys : List Instr) :
    locatedAll inside (xs ++ ys) = locatedAll inside xs ++ locatedAll inside ys := by
  induction xs with
  | nil => rfl
  | cons i xs ih => rw [List.cons_append, locatedAll, locatedAll, ih, List.append_assoc]

theorem locatedAll_single (inside : Bool) (i : Instr) :
    locatedAll inside [i] = located inside i := by
  rw [locatedAll, locatedAll, List.append_nil]

mutual

/-- It is a walk. -/
theorem map_located (inside : Bool) (i : Instr) : (located inside i).map (·.2) = i.walk := by
  cases i with
  | leaf _ _ _ => rfl
  | branch _ yes no _ _ _ _ =>
    rw [located, walk, List.map_cons, List.map_append, map_locatedAll, map_locatedAll]
  | loop _ test step body _ _ =>
    rw [located, walk, List.map_cons, List.map_append, List.map_append, map_locatedAll,
      map_locatedAll, map_locatedAll]
  | defun _ _ body => rw [located, walk, List.map_cons, map_locatedAll]
termination_by structural i

theorem map_locatedAll (inside : Bool) (list : List Instr) :
    (locatedAll inside list).map (·.2) = walkAll list := by
  cases list with
  | nil => rfl
  | cons i rest => rw [locatedAll, walkAll, List.map_append, map_located, map_locatedAll]
termination_by structural list

end

mutual

/-- In a function declaration everything stands in one. -/
theorem located_inside (inside : Bool) (i : Instr) :
    located true i = (located inside i).map fun p => (true, p.2) := by
  cases i with
  | leaf _ _ _ => rfl
  | branch _ yes no _ _ _ _ =>
    rw [located, located, List.map_cons, List.map_append, locatedAll_inside inside yes,
      locatedAll_inside inside no]
  | loop _ test step body _ _ =>
    rw [located, located, List.map_cons, List.map_append, List.map_append,
      locatedAll_inside inside test, locatedAll_inside inside step, locatedAll_inside inside body]
  | defun _ _ body =>
    rw [located, located, List.map_cons, ← locatedAll_inside true body]
termination_by structural i

theorem locatedAll_inside (inside : Bool) (list : List Instr) :
    locatedAll true list = (locatedAll inside list).map fun p => (true, p.2) := by
  cases list with
  | nil => rfl
  | cons i rest =>
    rw [locatedAll, locatedAll, List.map_append, located_inside inside i,
      locatedAll_inside inside rest]
termination_by structural list

end

theorem lastCall?_append (ps qs : List (Bool × Instr)) :
    lastCall? (ps ++ qs) = (lastCall? qs).or (lastCall? ps) := by
  unfold lastCall?
  rw [List.filter_append, List.getLast?_append, Option.map_or]

theorem lastCall?_other {i : Instr} (hi : i.command ≠ "call") : lastCall? [(inside, i)] = none := by
  unfold lastCall?
  rw [List.filter_cons_of_neg (by simpa using hi)]
  rfl

theorem lastCall?_inside :
    lastCall? (ps.map fun p => (true, p.2)) = (lastCall? ps).map fun _ => true := by
  unfold lastCall?
  rw [List.filter_map, List.getLast?_map, Option.map_map, Option.map_map]
  rfl

mutual

/-- What an instruction inside another one holds is walked in one go. -/
theorem walk_of_mem_walk {i j : Instr} (h : j ∈ i.walk) : j.walk <:+: i.walk := by
  rw [walk_eq, List.mem_cons] at h
  rcases h with rfl | h
  · exact List.infix_rfl
  rw [walk_eq i]
  refine List.IsInfix.trans ?_ (List.suffix_cons i _).isInfix
  cases i with
  | leaf _ _ _ => cases h
  | branch _ yes no _ _ _ _ =>
    rw [inner, walkAll_append] at h ⊢
    rcases List.mem_append.mp h with h | h
    · exact (walk_of_mem_walkAll h).trans (List.prefix_append _ _).isInfix
    · exact (walk_of_mem_walkAll h).trans (List.suffix_append _ _).isInfix
  | loop _ test step body _ _ =>
    rw [inner, walkAll_append, walkAll_append] at h ⊢
    rcases List.mem_append.mp h with h | h
    · refine List.IsInfix.trans ?_ (List.prefix_append _ _).isInfix
      rcases List.mem_append.mp h with h | h
      · exact (walk_of_mem_walkAll h).trans (List.prefix_append _ _).isInfix
      · exact (walk_of_mem_walkAll h).trans (List.suffix_append _ _).isInfix
    · exact (walk_of_mem_walkAll h).trans (List.suffix_append _ _).isInfix
  | defun _ _ body => exact walk_of_mem_walkAll h
termination_by structural i

theorem walk_of_mem_walkAll {list : List Instr} {j : Instr} (h : j ∈ walkAll list) :
    j.walk <:+: walkAll list := by
  cases list with
  | nil => cases h
  | cons i rest =>
    rw [walkAll] at h ⊢
    rcases List.mem_append.mp h with h | h
    · exact (walk_of_mem_walk h).trans (List.prefix_append _ _).isInfix
    · exact (walk_of_mem_walkAll h).trans (List.suffix_append _ _).isInfix
termination_by structural list

end

/-- A list with a call has a last one. -/
theorem lastCall?_ne_none (h : calls list ≠ []) : lastCall? (locatedAll inside list) ≠ none := by
  intro hnone
  unfold lastCall? at hnone
  rw [Option.map_eq_none_iff, List.getLast?_eq_none_iff] at hnone
  refine h ?_
  unfold calls
  rw [← map_locatedAll inside, List.filter_map]
  exact congrArg (List.map (·.2)) hnone

/-- Statements and calls stand where their list does. -/
theorem locatedAll_plain (h : ∀ i ∈ list, Plain i) :
    ∀ p ∈ locatedAll inside list, p.1 = inside := by
  induction list with
  | nil => exact List.forall_mem_nil _
  | cons i list ih =>
    obtain ⟨hi, hlist⟩ := List.forall_mem_cons.mp h
    rw [locatedAll, List.forall_mem_append]
    refine ⟨?_, ih hlist⟩
    cases hi <;> exact List.forall_mem_singleton.mpr rfl

theorem lastCall?_plain (h : ∀ i ∈ list, Plain i) (hcalls : calls list ≠ []) :
    lastCall? (locatedAll inside list) = some inside := by
  have hsome : lastCall? (locatedAll inside list) ≠ none := lastCall?_ne_none hcalls
  obtain ⟨last, hlast⟩ := Option.ne_none_iff_exists'.mp hsome
  obtain ⟨p, hp, rfl⟩ := Option.map_eq_some_iff.mp hlast
  have hmem := (List.mem_filter.mp (List.mem_of_getLast? hp)).1
  rw [hlast, locatedAll_plain h p hmem]

end

end Instr

namespace Walk

open Instr (located locatedAll lastCall? locatedAll_append locatedAll_single lastCall?_append
  lastCall?_other lastCall?_inside)

variable {env : Surface} {σ σ₁ σ₂ σ' : Scope} {job : Job} {vs : List Node} {split : Bool}
  {code list : List Instr} {ps qs : List (Bool × Instr)}

/-! ## §2. The temp made last. -/

/-- Between two scopes no temp was made and there is no call, or the temp made last is set where
    the last call stands. -/
def Newest (σ σ' : Scope) (ps : List (Bool × Instr)) : Prop :=
  lastCall? ps = none ∧ σ'.lastTemp? = σ.lastTemp? ∨
    ∃ inside x v, lastCall? ps = some inside ∧ σ'.lastTemp? = some x ∧
      (inside, .set (.name x) v) ∈ ps

theorem Newest.none (h : lastCall? ps = none) (hσ : σ.Declares σ') : Newest σ σ' ps := by
  refine .inl ⟨h, ?_⟩
  unfold Scope.lastTemp?
  rw [hσ.sameTemps]
  cases σ.temps with
  | zero => rfl
  | succ k => exact congrArg some (hσ.toGrows.temp k)

theorem Newest.append (h : Newest σ σ₁ ps) (h' : Newest σ₁ σ₂ qs) : Newest σ σ₂ (ps ++ qs) := by
  rcases h' with ⟨hcall, htemp⟩ | ⟨inside, x, v, hcall, htemp, hmem⟩
  · -- nothing new: what was made before is still the last
    unfold Newest
    rw [lastCall?_append, hcall, htemp, Option.none_or]
    refine h.imp id ?_
    rintro ⟨inside, x, v, hcall, htemp, hmem⟩
    exact ⟨inside, x, v, hcall, htemp, List.mem_append_left _ hmem⟩
  · refine .inr ⟨inside, x, v, ?_, htemp, List.mem_append_right _ hmem⟩
    rw [lastCall?_append, hcall, Option.some_or]

/-- What is in a function declaration is set in it. -/
theorem Newest.inside (h : Newest σ σ' ps) : Newest σ σ' (ps.map fun p => (true, p.2)) := by
  unfold Newest
  rw [lastCall?_inside]
  rcases h with ⟨hcall, htemp⟩ | ⟨inside, x, v, hcall, htemp, hmem⟩
  · exact .inl ⟨by rw [hcall]; rfl, htemp⟩
  · exact .inr ⟨true, x, v, by rw [hcall]; rfl, htemp, List.mem_map_of_mem hmem⟩

/-- A new temp is set at the end of code that has a call. -/
theorem Newest.temp {inside : Bool} (h : lastCall? ps = some inside) (value : Node) :
    Newest σ σ'.nextTemp.2 (ps ++ [(inside, .set (.name σ'.nextTemp.1) value)]) := by
  have hset : lastCall? [(inside, .set (.name σ'.nextTemp.1) value)] = Option.none :=
    lastCall?_other (by simp [Instr.command, Instr.set, Instr.stat])
  refine .inr ⟨inside, σ'.nextTemp.1, value, ?_, rfl, List.mem_append_right _ List.mem_cons_self⟩
  rw [lastCall?_append, hset, Option.none_or, h]

/-- The code between two scopes. -/
abbrev NewestIn (σ σ' : Scope) (list : List Instr) : Prop := Newest σ σ' (locatedAll false list)

theorem NewestIn.append (h : NewestIn σ σ₁ code) (h' : NewestIn σ₁ σ₂ list) :
    NewestIn σ σ₂ (code ++ list) := by
  unfold NewestIn
  rw [locatedAll_append]
  exact Newest.append h h'

theorem NewestIn.leaf {command : String} (hc : command ≠ "call") (n : Node) (a : Bool)
    (hσ : σ.Declares σ') : NewestIn σ σ' [.leaf command n a] :=
  .none (lastCall?_other hc) hσ

/-- An instruction in front of what it holds. -/
theorem Newest.hold {i : Instr} {inside : Bool} (hi : i.command ≠ "call") (h : Newest σ σ' ps) :
    Newest σ σ' ((inside, i) :: ps) :=
  Newest.append (.none (lastCall?_other hi) (.refl σ)) h

theorem Emits.newest (h : Emits env job σ vs split code σ') : NewestIn σ σ' code := by
  induction h with
  | reference | literal | operandsNil | void | stmtsNil | bindingsNil => exact .none rfl (.refl _)
  | copied => exact .none rfl (declares_copyScope _ _)
  | kept _ _ ih | leads _ _ ih => exact ih
  | captured hf ops ih =>
    unfold NewestIn
    rw [locatedAll_append]
    exact .temp (Instr.lastCall?_plain (ops.value_code rfl).1 (ops.calls_of_split rfl)) _
  | assigned _ _ ih => exact ih.append (.leaf (by decide) _ _ (.refl _))
  | test _ ih => exact ih.append (.leaf (by decide) _ _ (.refl _))
  | @called σ σ' c args vs split code ops ih =>
    have hlast : lastCall? [(false, callInstr env σ c args vs)] = some false := rfl
    have hcall : NewestIn σ' σ'.nextTemp.2
        [callInstr env σ c args vs, captureInstr env σ'.nextTemp.1] :=
      Newest.temp hlast env.returnValue
    exact ih.append hcall
  | operandsCons _ _ ih ih' | stmtsCons _ _ ih ih' => exact ih.append ih'
  | @effect _ _ _ _ split _ _ ih =>
    refine ih.append ?_
    cases split with
    | true => exact .none rfl (.refl _)
    | false => exact .leaf (by decide) _ _ (.refl _)
  | branch _ _ _ ih ih₁ ih₂ =>
    refine ih.append ?_
    unfold NewestIn
    rw [locatedAll_single, located]
    exact .hold (by simp [Instr.command]) (Newest.append ih₁ ih₂)
  | loop _ _ _ _ ih ih₁ ih₂ ih₃ =>
    refine ih.append ?_
    unfold NewestIn
    rw [locatedAll_single, located]
    exact .hold (by simp [Instr.command]) (Newest.append (Newest.append ih₁ ih₂) ih₃)
  | declaration _ ih =>
    unfold NewestIn
    rw [locatedAll_single, located, Instr.locatedAll_inside false]
    exact .hold (by simp [Instr.command]) (Newest.inside ih)
  | passed hp => exact .leaf (isPassed_tag hp) _ _ (declares_copyScope _ _)
  | @bare σ σ' x ds vs split code rest ih =>
    have hset : NewestIn σ (σ.declare x) [.set (σ.field x) .null] :=
      .leaf (by decide) _ _ (Scope.declares_declare σ x)
    exact hset.append ih
  | @bound σ σ₁ σ₂ x init v ds vs split split' code code' value rest ih ih' =>
    have hx := Scope.declares_declare σ x
    have hfront : NewestIn σ (σ.declare x) (placeholder split (σ.field x)) := by
      cases split with
      | true => exact .leaf (by decide) _ _ hx
      | false => exact .none rfl hx
    have hset : NewestIn σ₁ σ₁ [.set (σ.field x) v] := .leaf (by decide) _ _ (.refl _)
    exact (hfront.append ih).append (hset.append ih')

/-! ## §3. Temps that stand for sides. -/

/-- The temps that stand for the sides of branches have a property. -/
def SidesNamed (P : String → Bool) (list : List Instr) : Prop :=
  ∀ i ∈ Instr.controls list, ∀ side ∈ i.sides, ∀ x, side.2 = some x → P x = true

section

variable {P : String → Bool}

theorem SidesNamed.nil (h : Instr.controls list = []) : SidesNamed P list := by
  unfold SidesNamed
  rw [h]
  exact List.forall_mem_nil _

theorem SidesNamed.append (h : SidesNamed P code) (h' : SidesNamed P list) :
    SidesNamed P (code ++ list) := by
  unfold SidesNamed
  rw [Instr.controls_append, List.forall_mem_append]
  exact ⟨h, h'⟩

theorem SidesNamed.hold {i : Instr} (hi : i.isControl = true)
    (hsides : ∀ side ∈ i.sides, ∀ x, side.2 = some x → P x = true) (h : SidesNamed P i.inner) :
    SidesNamed P [i] := by
  unfold SidesNamed
  rw [Instr.controls_control hi, List.forall_mem_cons]
  exact ⟨hsides, h⟩

theorem regionTemp_named (hP : ∀ k, P (σ.temp k) = true) {x : String}
    (h : regionTemp split σ = some x) : P x = true := by
  unfold regionTemp Scope.lastTemp? at h
  cases split with
  | false => cases h
  | true =>
    rw [if_pos rfl] at h
    split at h
    · cases h
    · cases h
      exact hP _

/-- A temp stands for a side. -/
theorem Emits.sides_named (h : Emits env job σ vs split code σ') (hP : ∀ k, P (σ.temp k) = true) :
    SidesNamed P code := by
  have hlater : ∀ {σ σ₁ : Scope}, σ.Grows σ₁ → (∀ k, P (σ.temp k) = true) →
      ∀ k, P (σ₁.temp k) = true := fun hσ h k => by
    rw [hσ.temp]
    exact h k
  induction h with
  | reference | literal | copied | operandsNil | stmtsNil | bindingsNil | void => exact .nil rfl
  | kept _ _ ih | leads _ _ ih => exact ih hP
  | captured _ _ ih | assigned _ _ ih | test _ ih | called _ ih =>
    exact (ih hP).append (.nil rfl)
  | operandsCons head _ ih ih' | stmtsCons head _ ih ih' =>
    exact (ih hP).append (ih' (hlater head.grows hP))
  | @effect _ _ _ _ split _ _ ih =>
    refine (ih hP).append ?_
    cases split <;> exact .nil rfl
  | branch cond yesDone noDone ih ih₁ ih₂ =>
    have hP₁ := hlater cond.grows hP
    have hP₂ := hlater yesDone.grows hP₁
    refine (ih hP).append (.hold rfl ?_ ((ih₁ hP₁).append (ih₂ hP₂)))
    exact List.forall_mem_cons.mpr ⟨fun x hx => regionTemp_named hP₂ hx,
      List.forall_mem_singleton.mpr fun x hx => regionTemp_named (hlater noDone.grows hP₂) hx⟩
  | loop initDone testDone stepDone _ ih ih₁ ih₂ ih₃ =>
    have hP₁ := hlater initDone.grows hP
    have hP₂ := hlater testDone.grows hP₁
    refine (ih hP).append (.hold rfl (List.forall_mem_nil _) ?_)
    exact ((ih₁ hP₁).append (ih₂ hP₂)).append (ih₃ (hlater stepDone.grows hP₂))
  | declaration _ ih =>
    unfold SidesNamed
    rw [Instr.controls_other rfl]
    exact ih hP
  | passed hp => exact .nil rfl
  | @bare σ _ x _ _ _ _ _ ih =>
    have hset : SidesNamed P [.set (σ.field x) .null] := .nil rfl
    exact hset.append (ih (hlater (Scope.declares_declare σ x).toGrows hP))
  | @bound σ σ₁ σ₂ x init v ds vs split split' code code' value rest ih ih' =>
    have hP₁ := hlater (Scope.declares_declare σ x).toGrows hP
    have hfront : SidesNamed P (placeholder split (σ.field x)) := by
      cases split <;> exact .nil rfl
    have hset : SidesNamed P [.set (σ.field x) v] := .nil rfl
    exact (hfront.append (ih hP₁)).append (hset.append (ih' (hlater value.grows hP₁)))

end

end Walk

end Program

end Resumable
