/-
  Resumable.Proofs.Execution.TextOrder — the order of statements in the resulting tree.

  The tree of a program holds the payloads of the program's leaves, in the order of their lists, but
  for one kind of branch.  A side that was split stands in front of the branch, and a side that was
  not stays inside.  So if the other side alone was split, then it comes first, although the program
  has it behind the statements of the side that is taken when the condition holds.

  `linear` puts the payloads of a program into a row, `listing` those of a tree.  The second is the
  first with the sides of such branches exchanged (`rebuildAll_listing`).

  Main statement: `transform_lists_payloads`.
-/
import Resumable.Proofs.Execution.Agreement
import Resumable.Proofs.Walk.Shapes

namespace Resumable

namespace Node

/-! ## §1. Payloads of a tree. -/

mutual

/-- The payloads in a tree in the order of the text.  A side of a branch that is not a block refers
    to a temp or leaves a loop. -/
def listing : Node → List Node
  | absent => []
  | ifElse _ yes no => listingInside yes ++ listingInside no
  | forLoop _ _ _ body => listingInside body
  | defun _ _ body | block body | toplevel body | splice body => listingAll body
  | n => [n]

/-- The payloads in a block. -/
def listingInside : Node → List Node
  | block body => listingAll body
  | _ => []

/-- The payloads in a list of statements. -/
def listingAll : List Node → List Node
  | [] => []
  | n :: rest => n.listing ++ listingAll rest

end

theorem listingAll_eq (ns : List Node) : listingAll ns = ns.flatMap listing := by
  induction ns with
  | nil => rfl
  | cons n ns ih => rw [listingAll, ih, List.flatMap_cons]

theorem listingAll_append (ms ns : List Node) :
    listingAll (ms ++ ns) = listingAll ms ++ listingAll ns := by
  simp only [listingAll_eq, List.flatMap_append]

theorem listing_absent : absent.listing = [] := by
  rw [listing]

/-- Positions that are left empty hold no payloads. -/
theorem listing_spliceOf (ns : List Node) : (spliceOf ns).listing = listingAll ns := by
  rw [spliceOf, listing]
  induction ns with
  | nil => rfl
  | cons n ns ih =>
    rw [List.filter_cons]
    cases n with
    | absent => simpa [isAbsent, listingAll, listing_absent] using ih
    | _ => exact congrArg (listing _ ++ ·) ih

mutual

theorem listing_inlined (n : Node) : listingAll n.inlined = n.listing := by
  cases n with
  | absent => rw [inlined, listing_absent, listingAll]
  | splice ns => rw [inlined, listing, listing_flatten]
  | _ => exact List.append_nil _
termination_by structural n

/-- Splices hold the payloads that they dissolve into. -/
theorem listing_flatten (ns : List Node) : listingAll (flatten ns) = listingAll ns := by
  cases ns with
  | nil => rw [flatten]
  | cons n ns => rw [flatten, listingAll_append, listing_inlined n, listing_flatten ns, listingAll]
termination_by structural ns

end

end Node

namespace Program

namespace Instr

/-! ## §2. Payloads of a program. -/

mutual

/-- The payloads of the leaves of an instruction, with the other side of some branches first.  The
    test of a loop and a step that stays in place are left out. -/
def linear (elseFirst : Instr → Bool) : Instr → List Node
  | leaf command code _ => if command == "test" then [] else [code]
  | branch cond yes no hasElse shape yesTemp noTemp =>
      if elseFirst (branch cond yes no hasElse shape yesTemp noTemp) then
        linearAll elseFirst no ++ linearAll elseFirst yes
      else linearAll elseFirst yes ++ linearAll elseFirst no
  | loop _ test step body _ stepExpr =>
      linearAll elseFirst test ++ linearAll elseFirst body ++
        if stepExpr.isAbsent then linearAll elseFirst step else []
  | defun _ _ body => linearAll elseFirst body

/-- The payloads of the leaves of a list of instructions. -/
def linearAll (elseFirst : Instr → Bool) : List Instr → List Node
  | [] => []
  | i :: rest => linear elseFirst i ++ linearAll elseFirst rest

end

/-- The payloads of a program in the order in which it runs: the lists of a branch one after the
    other, those of a loop as they are first come to. -/
def execution (program : List Instr) : List Node := linearAll (fun _ => false) program

/-- A branch with statements on both sides of which the other one alone was split. -/
def elseAlone : Instr → Bool
  | branch _ yes _ _ shape _ _ => shape.no && !shape.yes && !yes.isEmpty
  | _ => false

section

variable {f g : Instr → Bool}

theorem linearAll_append (xs ys : List Instr) :
    linearAll f (xs ++ ys) = linearAll f xs ++ linearAll f ys := by
  induction xs with
  | nil => rfl
  | cons x xs ih => rw [List.cons_append, linearAll, linearAll, ih, List.append_assoc]

mutual

theorem linear_perm (i : Instr) : (linear f i).Perm (linear g i) := by
  cases i with
  | leaf command code async => rw [linear, linear]
  | branch cond yes no hasElse shape yesTemp noTemp =>
    have hyes := linearAll_perm yes
    have hno := linearAll_perm no
    rw [linear, linear]
    split <;> split
    · exact hno.append hyes
    · exact (hno.append hyes).trans List.perm_append_comm
    · exact (hyes.append hno).trans List.perm_append_comm
    · exact hyes.append hno
  | loop cond test step body condSplit stepExpr =>
    rw [linear, linear]
    refine ((linearAll_perm test).append (linearAll_perm body)).append ?_
    split
    · exact linearAll_perm step
    · exact .nil
  | defun name params body =>
    rw [linear, linear]
    exact linearAll_perm body
termination_by structural i

/-- Which side comes first makes no difference to which payloads there are. -/
theorem linearAll_perm (list : List Instr) : (linearAll f list).Perm (linearAll g list) := by
  cases list with
  | nil => exact .nil
  | cons i rest =>
    rw [linearAll, linearAll]
    exact (linear_perm i).append (linearAll_perm rest)
termination_by structural list

end

mutual

theorem linear_congr (i : Instr) (h : Every (fun i => f i = g i) [i]) :
    linear f i = linear g i := by
  obtain ⟨hi, hinner⟩ := every_single.mp h
  cases i with
  | leaf command code async => rw [linear, linear]
  | branch cond yes no hasElse shape yesTemp noTemp =>
    obtain ⟨hyes, hno⟩ := every_append.mp hinner
    rw [linear, linear, linearAll_congr yes hyes, linearAll_congr no hno, hi]
  | loop cond test step body condSplit stepExpr =>
    obtain ⟨hfirst, hbody⟩ := every_append.mp hinner
    obtain ⟨htest, hstep⟩ := every_append.mp hfirst
    rw [linear, linear, linearAll_congr test htest, linearAll_congr step hstep,
      linearAll_congr body hbody]
  | defun name params body => rw [linear, linear, linearAll_congr body hinner]
termination_by structural i

theorem linearAll_congr (list : List Instr) (h : Every (fun i => f i = g i) list) :
    linearAll f list = linearAll g list := by
  cases list with
  | nil => rfl
  | cons i rest =>
    obtain ⟨hi, hinner, hrest⟩ := every_cons.mp h
    rw [linearAll, linearAll, linear_congr i (every_single.mpr ⟨hi, hinner⟩),
      linearAll_congr rest hrest]
termination_by structural list

end

end

end Instr

/-! ## §3. The tree of a program. -/

open Instr (Plain Shaped TestShape StepShape WellShaped TempFor Every linear linearAll execution
  elseAlone every_cons every_single every_append linearAll_append)
open Node (listing listingInside listingAll listingAll_append)
open Execution.Interpretation (rebuildAll_append)

section

variable {i : Instr} {n c e : Node} {list test step : List Instr}

theorem listing_of_passed (h : Walk.isPassed n = true) : n.listing = [n] := by
  cases n <;> cases h <;> rfl

theorem rebuild_leaf_listing {command : String} {async : Bool} (hc : command ≠ "test")
    (hn : n.listing = [n]) :
    (rebuild (.leaf command n async)).listing = linear elseAlone (.leaf command n async) := by
  have htest : ¬ (command == "test") = true := by simpa using hc
  rw [rebuild, if_neg htest, hn, linear, if_neg htest]

theorem rebuild_plain_listing (h : Plain i) : (rebuild i).listing = linear elseAlone i := by
  have hstat (e : Node) : (Node.stat e).listing = [.stat e] := rfl
  cases h with
  | stat e => exact rebuild_leaf_listing (by decide) (hstat e)
  | call e async => exact rebuild_leaf_listing (by decide) (hstat e)

theorem rebuildAll_plain_listing (h : ∀ i ∈ list, Plain i) :
    listingAll (rebuildAll list) = linearAll elseAlone list := by
  induction list with
  | nil => rfl
  | cons i list ih =>
    obtain ⟨hi, hlist⟩ := List.forall_mem_cons.mp h
    rw [rebuildAll, listingAll, linearAll, rebuild_plain_listing hi, ih hlist]

/-- What was split out of a condition, at the beginning of the body. -/
theorem check_listing {condSplit : Bool} (h : TestShape c test condSplit) :
    listingAll (if condSplit then
      (rebuildAll test).dropLast ++ [.ifElse (.unary .before "!" c) (.breakTo "") .absent]
      else []) = linearAll elseAlone test := by
  cases h with
  | none => rfl
  | kept h => rfl
  | @split _ code hplain =>
    have hlast : linearAll elseAlone [.leaf "test" c false] = [] := rfl
    have hcheck : listingAll [.ifElse (.unary .before "!" c) (.breakTo "") .absent] = [] := rfl
    rw [if_pos rfl, rebuildAll_append, rebuildAll, rebuildAll, List.dropLast_concat,
      listingAll_append, hcheck, linearAll_append, hlast, rebuildAll_plain_listing hplain]

/-- What was split out of a step, at the end of the body. -/
theorem last_listing (h : StepShape e step) :
    listingAll (if e.isAbsent then rebuildAll step else []) =
      if e.isAbsent then linearAll elseAlone step else [] := by
  cases h with
  | kept he =>
    have hpresent := Node.isAbsent_of_isExpression he
    rw [hpresent, if_neg Bool.false_ne_true, if_neg Bool.false_ne_true, listingAll]
  | split hplain => exact rebuildAll_plain_listing hplain

theorem rebuildBranch_listing (cond : Node) (yes no : List Node × Node) :
    (rebuildBranch cond yes no).listing =
      listingAll yes.1 ++ listingAll no.1 ++ (listingInside yes.2 ++ listingInside no.2) := by
  unfold rebuildBranch
  dsimp only
  split
  · next hempty =>
    obtain ⟨hyes, hno⟩ := List.append_eq_nil_iff.mp (List.isEmpty_iff.mp hempty)
    rw [hyes, hno, listing]
    rfl
  · rw [Node.listing_spliceOf, listingAll_append, listingAll_append, listingAll, listing,
      listingAll, List.append_nil]

theorem isSome_of_tempFor {split : Bool} {temp : Option String} (h : TempFor split temp) :
    temp.isSome = split := by
  cases split with
  | true =>
    obtain ⟨t, ht, -⟩ := h.named rfl
    rw [ht]
    rfl
  | false => rw [h.unnamed rfl]; rfl

/-- A side of a branch is in front of it if it has a temp, and inside otherwise. -/
theorem rebuildSide_listing (temp : Option String) (ns : List Node) :
    listingAll (rebuildSide temp ns).1 = (if temp.isSome then listingAll ns else []) ∧
      listingInside (rebuildSide temp ns).2 = if temp.isSome then [] else listingAll ns := by
  cases temp with
  | none => exact ⟨rfl, rfl⟩
  | some t => exact ⟨rfl, rfl⟩

/-- The other side of a branch, which may be missing if it has no payloads. -/
theorem otherSide_listing {hasElse : Bool} (temp : Option String) {no : List Instr}
    (empty : hasElse = false → no = []) :
    let side := if hasElse then rebuildSide temp (rebuildAll no) else ([], .absent)
    listingAll side.1 = (if temp.isSome then listingAll (rebuildAll no) else []) ∧
      listingInside side.2 = if temp.isSome then [] else listingAll (rebuildAll no) := by
  cases hasElse with
  | true => exact rebuildSide_listing temp _
  | false =>
    rw [empty rfl]
    cases temp <;> exact ⟨rfl, rfl⟩

/-- The sides of a branch, each in front of it or inside. -/
theorem branch_listing {yes no : List Instr} {hasElse : Bool} {shape : Shape}
    {yesTemp noTemp : Option String}
    (hyes : listingAll (rebuildAll yes) = linearAll elseAlone yes)
    (hno : listingAll (rebuildAll no) = linearAll elseAlone no) (ofYes : TempFor shape.yes yesTemp)
    (ofNo : TempFor shape.no noTemp) (empty : hasElse = false → no = []) :
    (rebuild (.branch c yes no hasElse shape yesTemp noTemp)).listing =
      linear elseAlone (.branch c yes no hasElse shape yesTemp noTemp) := by
  obtain ⟨hfront, hinside⟩ := rebuildSide_listing yesTemp (rebuildAll yes)
  obtain ⟨hfront', hinside'⟩ := otherSide_listing noTemp empty
  rw [rebuild, rebuildBranch_listing, hfront, hfront', hinside, hinside', hyes, hno,
    isSome_of_tempFor ofYes, isSome_of_tempFor ofNo, linear, elseAlone]
  cases shape.yes <;> cases shape.no
  · rfl
  · -- the other side is in front of the branch and the first one inside
    cases yes with
    | nil => simp [linearAll]
    | cons i yes => simp
  · simp
  · simp

end

mutual

theorem rebuild_listing (i : Instr) (h : Shaped i) (hi : Every WellShaped [i]) :
    (rebuild i).listing = linear elseAlone i := by
  obtain ⟨hwell, hinner⟩ := every_single.mp hi
  cases i with
  | leaf command code async =>
    cases h with
    | plain h => exact rebuild_plain_listing h
    | passed hn =>
      refine rebuild_leaf_listing ?_ (listing_of_passed hn)
      exact (Shaped.passed hn).command_ne
  | branch cond yes no hasElse shape yesTemp noTemp =>
    cases h with
    | plain h => cases h
    | branch hyes hno helse =>
      cases hwell with
      | branch _ ofYes ofNo =>
        obtain ⟨hyesInner, hnoInner⟩ := every_append.mp hinner
        have hyesEq := rebuildAll_listing yes hyes hyesInner
        have hnoEq := rebuildAll_listing no hno hnoInner
        exact branch_listing hyesEq hnoEq ofYes ofNo helse
  | loop cond test step body condSplit stepExpr =>
    cases h with
    | plain h => cases h
    | loop htest hstep hbody =>
      obtain ⟨-, hbodyInner⟩ := every_append.mp hinner
      have hbodyEq := rebuildAll_listing body hbody hbodyInner
      rw [rebuild, rebuildLoop, listing, listingInside, listingAll_append, listingAll_append,
        check_listing htest, last_listing hstep, hbodyEq, linear]
  | defun name params body =>
    cases h with
    | plain h => cases h
    | defun hbody => rw [rebuild, listing, linear, rebuildAll_listing body hbody hinner]
termination_by structural i

/-- The tree of a list of instructions holds their payloads, the sides of branches of which the
    other one alone was split exchanged. -/
theorem rebuildAll_listing (list : List Instr) (h : ∀ i ∈ list, Shaped i)
    (hlist : Every WellShaped list) :
    listingAll (rebuildAll list) = linearAll elseAlone list := by
  cases list with
  | nil => rfl
  | cons i rest =>
    obtain ⟨hi, hrest⟩ := List.forall_mem_cons.mp h
    obtain ⟨hwell, hinner, hwells⟩ := every_cons.mp hlist
    rw [rebuildAll, listingAll, linearAll, rebuild_listing i hi (every_single.mpr ⟨hwell, hinner⟩),
      rebuildAll_listing rest hrest hwells]
termination_by structural list

end

/-! ## §4. Whole units. -/

/-- The payloads of a transformed unit stand in its tree as its program has them, but for branches
    of which the other side alone was split: there that side comes first.  So none is lost and none
    doubled, and where there is no such branch the tree is in the order of the program. -/
theorem transform_lists_payloads (naming : Naming) (isAsync : String → Bool) (unit : Node)
    (t : Transformed) (h : (transform naming isAsync unit).1 = .ok t) :
    t.tree.listing = linearAll elseAlone t.program ∧
      t.tree.listing.Perm (execution t.program) ∧
      ((∀ i ∈ Instr.walkAll t.program, elseAlone i = false) →
        t.tree.listing = execution t.program) := by
  obtain ⟨body, σ, rfl, hd⟩ := transform_emits h
  obtain ⟨vs, split, he⟩ := hd.emits
  have hlisting : t.tree.listing = linearAll elseAlone t.program := by
    rw [transform_tree h, listing, Node.listing_flatten]
    exact rebuildAll_listing t.program (he.shaped nofun) he.wellShaped
  rw [hlisting]
  exact ⟨rfl, Instr.linearAll_perm t.program, Instr.linearAll_congr t.program⟩

/-- A branch with both sides split, in a loop whose condition and step are split:
    `for (; h(); k()) if (x) f(); else g();`. -/
theorem transform_lists_payloads_of_loop :
    let unit : Node := .toplevel [.forLoop .absent (.call (.name "h") []) (.call (.name "k") [])
      (.ifElse (.name "x") (.stat (.call (.name "f") [])) (.stat (.call (.name "g") [])))]
    ∃ t, (transform {} (fun _ => false) unit).1 = .ok t ∧
      (∀ i ∈ Instr.walkAll t.program, elseAlone i = false) ∧
      t.tree.listing = execution t.program := by
  intro unit
  obtain ⟨t, ht, hbranches⟩ := exists_of_okAnd (r := (transform {} (fun _ => false) unit).1)
    (fun t => (Instr.walkAll t.program).all (fun i => !elseAlone i)) (by decide +kernel)
  have hbranches : ∀ i ∈ Instr.walkAll t.program, elseAlone i = false := by
    simpa using hbranches
  obtain ⟨-, -, hequal⟩ := transform_lists_payloads {} (fun _ => false) unit t ht
  exact ⟨t, ht, hbranches, hequal hbranches⟩

/-- A branch of which the other side alone is split, `if (x) a = 1; else f();`.  In the program the
    call is the second payload, in the tree it is the first. -/
theorem transform_lists_else_first :
    let unit : Node := .toplevel [.ifElse (.name "x")
      (.stat (.assign "" (.name "a") (.num "1"))) (.stat (.call (.name "f") []))]
    ∃ t, (transform {} (fun _ => false) unit).1 = .ok t ∧
      t.tree.listing ≠ execution t.program := by
  intro unit
  obtain ⟨t, ht, hcalls⟩ := exists_of_okAnd (r := (transform {} (fun _ => false) unit).1)
    (fun t =>
      (execution t.program).map (·.children.map Node.tag) == [["assign"], ["call"], ["assign"]] &&
      t.tree.listing.map (·.children.map Node.tag) == [["call"], ["assign"], ["assign"]])
    (by decide +kernel)
  simp only [Bool.and_eq_true, beq_iff_eq] at hcalls
  refine ⟨t, ht, fun heq => ?_⟩
  rw [heq, hcalls.1] at hcalls
  exact absurd hcalls.2 (by decide)

end Program

end Resumable
