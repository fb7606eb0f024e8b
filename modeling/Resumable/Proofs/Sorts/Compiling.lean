/-
  Resumable.Proofs.Sorts.Compiling — every well-sorted unit compiles.

  Three passes have their own idea of what may stand where: the walk, the printer, and what makes
  statements of instructions.  They agree: a well-sorted unit has a well-sorted program, which has
  a code and a well-sorted tree, which has a text.

  Main statement: `compile_defined`.
-/
import Resumable.Proofs.Marks.Independence
import Resumable.Proofs.Sorts.Programs
import Resumable.Proofs.Sorts.Walking
import Resumable.Proofs.Walk.Dotted

namespace Resumable.Program

open Instr (SortedAll every_append every_cons)
open Node (Fits WellSorted wellSorted_of_leaf wellSorted_one wellSorted_three wellSorted_four
  wellSorted_list)

/-! ## §1. The tree of a program. -/

mutual

theorem inlined_fits (n : Node) (h : Fits .statement n) : ∀ m ∈ n.inlined, Fits .statement m := by
  cases n with
  | absent => cases h.admitted
  | splice ns =>
    rw [Node.inlined]
    exact flatten_fits ns ((wellSorted_list rfl).mp h.sorted)
  | _ =>
    rw [Node.inlined]
    · exact List.forall_mem_singleton.mpr h
    all_goals exact nofun
termination_by structural n

/-- Statements are statements where splices dissolve. -/
theorem flatten_fits (ns : List Node) (h : ∀ n ∈ ns, Fits .statement n) :
    ∀ m ∈ Node.flatten ns, Fits .statement m := by
  cases ns with
  | nil =>
    rw [Node.flatten]
    exact List.forall_mem_nil _
  | cons n ns =>
    obtain ⟨hn, hns⟩ := List.forall_mem_cons.mp h
    rw [Node.flatten]
    exact List.forall_mem_append.mpr ⟨inlined_fits n hn, flatten_fits ns hns⟩
termination_by structural ns

end

section

variable {n cond stepExpr : Node} {ns test step body : List Node}

/-- A side of a branch is a statement, and so is what is placed before the branch. -/
theorem rebuildSide_fits (temp : Option String) (h : ∀ n ∈ ns, Fits .statement n) :
    (∀ n ∈ (rebuildSide temp ns).1, Fits .statement n) ∧
      Fits .statement (rebuildSide temp ns).2 := by
  cases temp with
  | none => exact ⟨List.forall_mem_nil _, rfl, (wellSorted_list rfl).mpr h⟩
  | some t => exact ⟨h, rfl, (wellSorted_one rfl).mpr ⟨rfl, wellSorted_of_leaf rfl⟩⟩

theorem rebuildBranch_fits {yes no : List Node × Node} (hcond : Fits .operand cond)
    (hyes : (∀ n ∈ yes.1, Fits .statement n) ∧ Fits .statement yes.2)
    (hno : (∀ n ∈ no.1, Fits .statement n) ∧ Fits .optionalStatement no.2) :
    Fits .statement (rebuildBranch cond yes no) := by
  have hif : Fits .statement (.ifElse cond yes.2 no.2) :=
    ⟨rfl, (wellSorted_three rfl).mpr ⟨hcond, hyes.2, hno.2⟩⟩
  unfold rebuildBranch
  dsimp only
  split
  · exact hif
  · refine ⟨rfl, (wellSorted_list rfl).mpr fun n hn => ?_⟩
    rcases List.mem_append.mp (List.mem_filter.mp hn).1 with hn | hn
    · rcases List.mem_append.mp hn with hn | hn
      · exact hyes.1 n hn
      · exact hno.1 n hn
    · rw [List.mem_singleton.mp hn]
      exact hif

theorem rebuildLoop_fits {condSplit : Bool}
    (hcond : Fits (if condSplit then .operand else .optional) cond)
    (hstepExpr : Fits .optional stepExpr) (htest : ∀ n ∈ test, Fits .statement n)
    (hstep : ∀ n ∈ step, Fits .statement n) (hbody : ∀ n ∈ body, Fits .statement n) :
    Fits .statement (rebuildLoop cond test step body condSplit stepExpr) := by
  have nothing : ∀ p : Position, p.admits .absent = true → Fits p .absent :=
    fun p hp => ⟨hp, wellSorted_of_leaf rfl⟩
  have hlast : ∀ n ∈ (if stepExpr.isAbsent then step else []), Fits .statement n := by
    split
    · exact hstep
    · exact List.forall_mem_nil _
  -- the rest of the loop is the same whether its condition stays in front of it or not
  have hloop : ∀ {head : Node} {check : List Node}, Fits .optional head →
      (∀ n ∈ check, Fits .statement n) →
      Fits .statement (.forLoop .absent head stepExpr
        (.block (check ++ body ++ if stepExpr.isAbsent then step else []))) := by
    intro head check hhead hcheck
    refine ⟨rfl, (wellSorted_four rfl).mpr ⟨nothing _ rfl, hhead, hstepExpr, rfl, ?_⟩⟩
    refine (wellSorted_list rfl).mpr (List.forall_mem_append.mpr ⟨?_, hlast⟩)
    exact List.forall_mem_append.mpr ⟨hcheck, hbody⟩
  cases condSplit with
  | false => exact hloop hcond (List.forall_mem_nil _)
  | true =>
    refine hloop (nothing _ rfl) (List.forall_mem_append.mpr ⟨fun n hn => ?_, ?_⟩)
    · exact htest n (List.dropLast_subset test hn)
    · have hnot : Fits .operand (.unary .before "!" cond) := ⟨rfl, (wellSorted_one rfl).mpr hcond⟩
      have hbreak : Fits .statement (.breakTo "") := ⟨rfl, wellSorted_of_leaf rfl⟩
      exact List.forall_mem_singleton.mpr
        ⟨rfl, (wellSorted_three rfl).mpr ⟨hnot, hbreak, nothing _ rfl⟩⟩

end

mutual

theorem rebuild_fits (i : Instr) (h : ∀ p ∈ i.positions, Fits p.1 p.2) (hi : SortedAll i.inner) :
    Fits .statement (rebuild i) := by
  cases i with
  | leaf command code async =>
    have hcode := List.forall_mem_singleton.mp h
    rw [rebuild]
    split
    · next hc =>
      rw [if_pos hc] at hcode
      exact ⟨rfl, (wellSorted_one rfl).mpr hcode⟩
    · next hc =>
      rw [if_neg hc] at hcode
      exact hcode
  | branch cond yes no hasElse shape yesTemp noTemp =>
    obtain ⟨hyes, hno⟩ := every_append.mp hi
    have hcond : Fits .operand cond := h (.operand, cond) List.mem_cons_self
    have hyesSide := rebuildSide_fits yesTemp (rebuildAll_fits yes hyes)
    have hnoSide := rebuildSide_fits noTemp (rebuildAll_fits no hno)
    rw [rebuild]
    refine rebuildBranch_fits hcond hyesSide ?_
    cases hasElse with
    | false => exact ⟨List.forall_mem_nil _, rfl, wellSorted_of_leaf rfl⟩
    | true => exact ⟨hnoSide.1, hnoSide.2.to_optionalStatement⟩
  | loop cond test step body condSplit stepExpr =>
    obtain ⟨hcond, hlast⟩ := List.forall_mem_cons.mp h
    have hstepExpr : Fits .optional stepExpr := hlast (.optional, stepExpr) List.mem_cons_self
    obtain ⟨htests, hbody⟩ := every_append.mp hi
    obtain ⟨htest, hstep⟩ := every_append.mp htests
    rw [rebuild]
    exact rebuildLoop_fits hcond hstepExpr (rebuildAll_fits test htest)
      (rebuildAll_fits step hstep) (rebuildAll_fits body hbody)
  | defun name params body =>
    rw [rebuild]
    exact ⟨rfl, (wellSorted_list rfl).mpr (rebuildAll_fits body hi)⟩
termination_by structural i

/-- The statements that stand for a well-sorted program are well-sorted. -/
theorem rebuildAll_fits (list : List Instr) (h : SortedAll list) :
    ∀ n ∈ rebuildAll list, Fits .statement n := by
  cases list with
  | nil => exact List.forall_mem_nil _
  | cons i rest =>
    obtain ⟨hi, hinner, hrest⟩ := every_cons.mp h
    exact List.forall_mem_cons.mpr ⟨rebuild_fits i hi hinner, rebuildAll_fits rest hrest⟩
termination_by structural list

end

/-! ## §2. The code of a program. -/

section

variable {render : Renderer}

/-- A renderer that has a text for every well-sorted tree. -/
def Complete (render : Renderer) : Prop :=
  ∀ n : Node, WellSorted n → n.isAbsent = false → Defined (render n)

theorem payload_defined (hr : Complete render) (path : List String) {n : Node} (h : WellSorted n)
    (ha : n.isAbsent = false) : Defined (payload render path n) := by
  obtain ⟨text, htext⟩ := hr n h ha
  unfold payload
  rw [if_neg (by rw [ha]; exact Bool.false_ne_true), htext]
  exact .pure text

mutual

theorem serialize_defined (hr : Complete render) (path : List String) (i : Instr)
    (h : ∀ p ∈ i.positions, Fits p.1 p.2) (hi : SortedAll i.inner) :
    Defined (serialize render path i) := by
  cases i with
  | leaf command code async =>
    have hcode := List.forall_mem_singleton.mp h
    have ha : code.isAbsent = false := by
      split at hcode
      · exact hcode.statement_of_operand.isAbsent
      · exact hcode.isAbsent
    rw [serialize]
    exact .bind (payload_defined hr path hcode.sorted ha) fun _ => .pure _
  | branch cond yes no hasElse shape yesTemp noTemp =>
    have hcond : Fits .operand cond := h (.operand, cond) List.mem_cons_self
    obtain ⟨hyes, hno⟩ := every_append.mp hi
    rw [serialize]
    exact .bind (payload_defined hr path hcond.sorted hcond.statement_of_operand.isAbsent) fun _ =>
      .bind (serializeAll_defined hr _ 0 yes hyes) fun _ =>
      .bind (serializeAll_defined hr _ 0 no hno) fun _ => .pure _
  | loop cond test step body condSplit stepExpr =>
    obtain ⟨htests, hbody⟩ := every_append.mp hi
    obtain ⟨htest, hstep⟩ := every_append.mp htests
    rw [serialize]
    exact .bind (serializeAll_defined hr _ 0 test htest) fun _ =>
      .bind (serializeAll_defined hr _ 0 step hstep) fun _ =>
      .bind (serializeAll_defined hr _ 0 body hbody) fun _ => .pure _
  | defun name params body =>
    rw [serialize]
    exact .bind (serializeAll_defined hr _ 0 body hi) fun _ => .pure _
termination_by structural i

/-- A well-sorted program has a code. -/
theorem serializeAll_defined (hr : Complete render) (path : List String) (k : Nat)
    (list : List Instr) (h : SortedAll list) : Defined (serializeAll render path k list) := by
  cases list with
  | nil =>
    rw [serializeAll]
    exact .pure _
  | cons i rest =>
    obtain ⟨hi, hinner, hrest⟩ := every_cons.mp h
    rw [serializeAll]
    exact .bind (serialize_defined hr _ i hi hinner) fun _ =>
      .bind (serializeAll_defined hr path (k + 1) rest hrest) fun _ => .pure _
termination_by structural list

end

end

/-! ## §3. Units. -/

/-- A dotted path is an expression. -/
theorem Naming.dotted_fits (path : String) : Fits .operand (Naming.dotted path) := by
  refine Naming.dotted_of (P := fun _ n => Fits .operand n) path ?_ fun _ _ n f h => ?_
  · exact fun x => ⟨rfl, wellSorted_of_leaf rfl⟩
  · exact ⟨rfl, (wellSorted_one rfl).mpr h⟩

/-- The program of a well-sorted unit is well-sorted. -/
theorem transform_sorted {naming : Naming} {isAsync : String → Bool} {body : List Node}
    {t : Transformed} (h : WellSorted (.toplevel body))
    (ht : (transform naming isAsync (.toplevel body)).1 = .ok t) : SortedAll t.program := by
  obtain ⟨body', σ, heq, hd⟩ := transform_emits ht
  cases heq
  obtain ⟨vs, split, he⟩ := hd.emits
  have hbody := (wellSorted_list rfl).mp h
  exact (he.sorted (Naming.dotted_fits _) fun m hm => (hbody m hm).sorted).2

/-- A well-sorted unit compiles under every naming and every convention: it is transformed, its
    program has a code, and its tree has a text. -/
theorem compile_defined (naming : Naming) (isAsync : String → Bool) (body : List Node)
    (h : WellSorted (.toplevel body)) :
    ∃ t code source,
      (transform naming isAsync (.toplevel body)).1 = .ok t ∧
      toCode (Source.render .oneLine) t.program = .ok code ∧
      Source.render {} t.tree = .ok source ∧
      (compile { naming, isAsync } (.toplevel body)).1 =
        .ok { source, code, locals := t.locals, stats := t.stats } := by
  obtain ⟨t, ht⟩ := transform_defined naming isAsync h
  have hprogram := transform_sorted h ht
  have htree : WellSorted t.tree := by
    rw [transform_tree ht]
    exact (wellSorted_list rfl).mpr (flatten_fits _ (rebuildAll_fits t.program hprogram))
  have hpresent : t.tree.isAbsent = false := by
    rw [transform_tree ht]
    rfl
  have hpayload : Complete (Source.render .oneLine) :=
    fun n hn ha => Source.render_defined .oneLine hn ha
  obtain ⟨code, hcode⟩ := serializeAll_defined hpayload [] 0 t.program hprogram
  obtain ⟨source, hsource⟩ := Source.render_defined {} htree hpresent
  have hcode' : toCode (Source.render .oneLine) t.program = .ok code := hcode
  refine ⟨t, code, source, ht, hcode', hsource, ?_⟩
  rw [compile_fst, ht]
  show t.output _ = _
  simp only [Transformed.output, hcode', hsource]
  rfl

/-- A unit with a declaration that heads a loop, a split condition, a split step, a branch whose
    sides hold calls, and constructs that are copied. -/
theorem compile_defined_of_loop :
    let body : List Node :=
      [.forLoop (.var [("i", .num "0"), ("n", .call (.name "size") [])])
          (.binary "<" (.name "i") (.call (.name "asyncLimit") [.name "n"]))
          (.assign "+" (.name "i") (.call (.name "step") []))
          (.ifElse (.call (.name "test") [.name "i"]) (.stat (.call (.name "f") []))
            (.block [.var [("x", .absent)], .ret .absent])),
        .forIn (.var [("k", .absent)]) (.name "o")
          (.switch (.name "k") [(.num "1", [.breakTo ""]), (.absent, [.splice []])]),
        .assign "" (.name "g") (.function "" ["y"] [.tryCatch [] (some ("e", [])) none])]
    Node.WellSorted (.toplevel body) ∧
      ∃ t code source,
        (transform {} Convention.usual.isAsync (.toplevel body)).1 = .ok t ∧
        toCode (Source.render .oneLine) t.program = .ok code ∧
        Source.render {} t.tree = .ok source ∧
        (compile { naming := {}, isAsync := Convention.usual.isAsync } (.toplevel body)).1 =
          .ok { source, code, locals := t.locals, stats := t.stats } := by
  intro body
  have h : Node.WellSorted (.toplevel body) := by decide +kernel
  exact ⟨h, compile_defined {} Convention.usual.isAsync body h⟩

end Resumable.Program
