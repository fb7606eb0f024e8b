/-
  Resumable.Proofs.Splices.Compiling — inlining a splice changes no text and no code.

  The program of a unit and that of what the unit dissolves into differ in what their payloads
  dissolve into, and in nothing else.  Payloads are only looked at by a renderer, which cannot tell
  them from what they dissolve into; the tree of a program is put together from them, and the same
  holds of it.

  Main results:
    * `transform_dissolved` — a unit is transformed like what it dissolves into;
    * `compile_dissolved`   — and is compiled to the same;
    * `compile_inlines`     — so it makes no difference to inline a splice.
-/
import Resumable.Convention
import Resumable.Program.Compile
import Resumable.Proofs.Splices.Rendering
import Resumable.Proofs.Splices.Walking
import Resumable.Proofs.Walk.Dotted
import Resumable.Proofs.Walk.Statement

namespace Resumable.Program

open Node (dissolved)

/-! ## §1. The tree of a program. -/

/-- Lists of nodes that dissolve into the same, one by one. -/
def DissolveAlike (xs ys : List Node) : Prop := xs.map dissolved = ys.map dissolved

namespace DissolveAlike

variable {xs ys xs' ys' : List Node}

theorem single {n n' : Node} (h : n.dissolved = n'.dissolved) : DissolveAlike [n] [n'] :=
  congrArg (fun m => [m]) h

theorem append (h : DissolveAlike xs ys) (h' : DissolveAlike xs' ys') :
    DissolveAlike (xs ++ xs') (ys ++ ys') := by
  unfold DissolveAlike
  rw [List.map_append, List.map_append, h, h']

theorem dropLast (h : DissolveAlike xs ys) : DissolveAlike xs.dropLast ys.dropLast := by
  unfold DissolveAlike
  rw [List.map_dropLast, List.map_dropLast, h]

theorem isEmpty_eq (h : DissolveAlike xs ys) : xs.isEmpty = ys.isEmpty := by
  rw [← List.isEmpty_map (f := dissolved), h, List.isEmpty_map]

/-- As statement lists they dissolve into the same. -/
theorem dissolvedAll_eq (h : DissolveAlike xs ys) :
    Node.dissolvedAll xs = Node.dissolvedAll ys := by
  rw [Node.dissolvedAll_eq, Node.dissolvedAll_eq, h]

/-- Empty positions are left out alike. -/
theorem spliceOf_eq (h : DissolveAlike xs ys) :
    (Node.spliceOf xs).dissolved = (Node.spliceOf ys).dissolved := by
  have filtered : ∀ ns : List Node, (ns.filter (fun n => !n.isAbsent)).map dissolved =
      (ns.map dissolved).filter (fun n => !n.isAbsent) := by
    intro ns
    rw [List.filter_map]
    congr 2
    funext n
    exact congrArg (!·) (Node.isAbsent_dissolved n).symm
  have rest : DissolveAlike (xs.filter (fun n => !n.isAbsent))
      (ys.filter (fun n => !n.isAbsent)) := by
    unfold DissolveAlike
    rw [filtered, filtered, h]
  exact congrArg Node.splice rest.dissolvedAll_eq

end DissolveAlike

/-- Sides of a branch that dissolve into the same. -/
structure SidesAlike (side side' : List Node × Node) : Prop where
  hoisted : DissolveAlike side.1 side'.1
  rest : side.2.dissolved = side'.2.dissolved

theorem rebuildSide_alike (temp : Option String) {xs ys : List Node} (h : DissolveAlike xs ys) :
    SidesAlike (rebuildSide temp xs) (rebuildSide temp ys) := by
  cases temp with
  | some t => exact ⟨h, rfl⟩
  | none => exact ⟨rfl, congrArg Node.block h.dissolvedAll_eq⟩

theorem rebuildBranch_alike {cond cond' : Node} {yes yes' no no' : List Node × Node}
    (hcond : cond.dissolved = cond'.dissolved) (hyes : SidesAlike yes yes')
    (hno : SidesAlike no no') :
    (rebuildBranch cond yes no).dissolved = (rebuildBranch cond' yes' no').dissolved := by
  have hoisted : DissolveAlike (yes.1 ++ no.1) (yes'.1 ++ no'.1) := hyes.hoisted.append hno.hoisted
  have last : (Node.ifElse cond yes.2 no.2).dissolved =
      (Node.ifElse cond' yes'.2 no'.2).dissolved := by
    rw [dissolved, dissolved, hcond, hyes.rest, hno.rest]
  unfold rebuildBranch
  dsimp only
  rw [hoisted.isEmpty_eq]
  split
  · exact last
  · exact (hoisted.append (.single last)).spliceOf_eq

theorem rebuildLoop_alike {cond cond' stepExpr stepExpr' : Node}
    {test test' step step' body body' : List Node} (condSplit : Bool)
    (hcond : cond.dissolved = cond'.dissolved) (htest : DissolveAlike test test')
    (hstep : DissolveAlike step step') (hbody : DissolveAlike body body')
    (hkept : stepExpr.dissolved = stepExpr'.dissolved) :
    (rebuildLoop cond test step body condSplit stepExpr).dissolved =
      (rebuildLoop cond' test' step' body' condSplit stepExpr').dissolved := by
  -- the step stands at the end of the body unless it is kept in the header
  have last : DissolveAlike (if stepExpr.isAbsent then step else [])
      (if stepExpr'.isAbsent then step' else []) := by
    rw [← Node.isAbsent_dissolved stepExpr, hkept, Node.isAbsent_dissolved]
    split
    · exact hstep
    · exact rfl
  unfold rebuildLoop
  cases condSplit with
  | false =>
    have inside := (hbody.append last).dissolvedAll_eq
    simp only [dissolved, Bool.false_eq_true, if_false, List.nil_append, hcond, hkept, inside]
  | true =>
    -- the check at the top of the body ends with the condition
    have check : (Node.ifElse (.unary .before "!" cond) (.breakTo "") .absent).dissolved =
        (Node.ifElse (.unary .before "!" cond') (.breakTo "") .absent).dissolved := by
      simp only [dissolved, hcond]
    have inside := (((htest.dropLast.append (.single check)).append hbody).append
      last).dissolvedAll_eq
    simp only [dissolved, if_true, hkept, inside]

mutual

/-- A dissolved instruction stands for a statement that dissolves into the same. -/
theorem rebuild_dissolved (i : Instr) :
    (rebuild i.dissolved).dissolved = (rebuild i).dissolved := by
  cases i with
  | leaf command code async =>
    rw [Instr.dissolved, rebuild, rebuild]
    split
    · rw [dissolved, dissolved, Node.dissolved_dissolved]
    · exact Node.dissolved_dissolved code
  | branch cond yes no hasElse shape yesTemp noTemp =>
    rw [Instr.dissolved, rebuild, rebuild]
    refine rebuildBranch_alike (Node.dissolved_dissolved cond)
      (rebuildSide_alike yesTemp (rebuildAll_dissolved yes)) ?_
    cases hasElse with
    | false => exact ⟨rfl, rfl⟩
    | true => exact rebuildSide_alike noTemp (rebuildAll_dissolved no)
  | loop cond test step body condSplit stepExpr =>
    rw [Instr.dissolved, rebuild, rebuild]
    exact rebuildLoop_alike condSplit (Node.dissolved_dissolved cond) (rebuildAll_dissolved test)
      (rebuildAll_dissolved step) (rebuildAll_dissolved body) (Node.dissolved_dissolved stepExpr)
  | defun name params body =>
    rw [Instr.dissolved, rebuild, rebuild, dissolved, dissolved]
    exact congrArg (Node.defun name params) (rebuildAll_dissolved body).dissolvedAll_eq
termination_by structural i

theorem rebuildAll_dissolved (is : List Instr) :
    DissolveAlike (rebuildAll (Instr.dissolvedAll is)) (rebuildAll is) := by
  cases is with
  | nil => rfl
  | cons i rest =>
    rw [Instr.dissolvedAll, rebuildAll, rebuildAll]
    exact (DissolveAlike.single (rebuild_dissolved i)).append (rebuildAll_dissolved rest)
termination_by structural is

end

/-! ## §2. The code of a program. -/

section

variable {render : Renderer}

theorem payload_dissolved (h : ∀ n : Node, render n.dissolved = render n) (path : List String)
    (n : Node) :
    payload render path n.dissolved = payload render path n := by
  unfold payload
  rw [Node.isAbsent_dissolved, h, Node.tag_dissolved]

mutual

theorem serialize_dissolved (h : ∀ n : Node, render n.dissolved = render n) (path : List String)
    (i : Instr) :
    serialize render path i.dissolved = serialize render path i := by
  cases i with
  | leaf command code async =>
    rw [Instr.dissolved, serialize, serialize, payload_dissolved h]
  | branch cond yes no hasElse shape yesTemp noTemp =>
    simp only [Instr.dissolved, serialize, payload_dissolved h, serializeAll_dissolved h _ 0 yes,
      serializeAll_dissolved h _ 0 no]
  | loop cond test step body condSplit stepExpr =>
    simp only [Instr.dissolved, serialize, serializeAll_dissolved h _ 0 test,
      serializeAll_dissolved h _ 0 step, serializeAll_dissolved h _ 0 body]
  | defun name params body =>
    simp only [Instr.dissolved, serialize, serializeAll_dissolved h _ 0 body]
termination_by structural i

/-- A renderer that cannot tell nodes from what they dissolve into gives the same code. -/
theorem serializeAll_dissolved (h : ∀ n : Node, render n.dissolved = render n)
    (path : List String) (k : Nat) (is : List Instr) :
    serializeAll render path k (Instr.dissolvedAll is) = serializeAll render path k is := by
  cases is with
  | nil => rfl
  | cons i rest =>
    simp only [Instr.dissolvedAll, serializeAll, serialize_dissolved h _ i,
      serializeAll_dissolved h path (k + 1) rest]
termination_by structural is

end

end

/-! ## §3. Transforming. -/

namespace Instr

mutual

theorem length_walk_dissolved (i : Instr) : (walk i.dissolved).length = (walk i).length := by
  cases i with
  | leaf _ _ _ => rfl
  | branch _ yes no _ _ _ _ =>
    simp only [dissolved, walk, List.length_cons, List.length_append, length_walkAll_dissolved yes,
      length_walkAll_dissolved no]
  | loop _ test step body _ _ =>
    simp only [dissolved, walk, List.length_cons, List.length_append, length_walkAll_dissolved test,
      length_walkAll_dissolved step, length_walkAll_dissolved body]
  | defun _ _ body => simp only [dissolved, walk, List.length_cons, length_walkAll_dissolved body]
termination_by structural i

theorem length_walkAll_dissolved (is : List Instr) :
    (walkAll (dissolvedAll is)).length = (walkAll is).length := by
  cases is with
  | nil => rfl
  | cons i rest =>
    simp only [dissolvedAll, walkAll, List.length_append, length_walk_dissolved i,
      length_walkAll_dissolved rest]
termination_by structural is

end

end Instr

/-- A transformed unit with dissolved payloads, and the tree that they make up. -/
def Transformed.dissolved (t : Transformed) : Transformed :=
  { t with
    tree := .toplevel (Node.flatten (rebuildAll (Instr.dissolvedAll t.program)))
    program := Instr.dissolvedAll t.program }

theorem State.finish_dissolved (s : State) :
    s.dissolved.finish = s.finish.map Transformed.dissolved := by
  have balanced : s.dissolved.frames.balanced = s.frames.balanced := Frames.balanced_map _ _
  have depth : s.dissolved.frames.depth = s.frames.depth := Frames.depth_map _ _
  unfold State.finish
  rw [balanced, depth]
  cases hb : s.frames.balanced with
  | false => rfl
  | true =>
    have program : s.dissolved.frames.root.1 = Instr.dissolvedAll s.frames.root.1 :=
      (Frames.root_map _ hb).trans (Instr.dissolvedAll_eq _).symm
    have count : Instr.count (Instr.dissolvedAll s.frames.root.1) = Instr.count s.frames.root.1 :=
      Instr.length_walkAll_dissolved _
    simp only [if_true, program, count]
    rfl

theorem Naming.surface_dissolved (naming : Naming) (isAsync : String → Bool) :
    (naming.surface isAsync).Dissolved := by
  exact Naming.dotted_of (P := fun _ n => n.dissolved = n) naming.returnValue (fun _ => rfl)
    fun _ _ _ f h => congrArg (Node.dot · f) h

/-- A unit is transformed like what it dissolves into, with the same remarks. -/
theorem transform_dissolved (naming : Naming) (isAsync : String → Bool) (unit : Node) :
    transform naming isAsync unit.dissolved =
      ((transform naming isAsync unit).1.map Transformed.dissolved,
        (transform naming isAsync unit).2) := by
  cases unit with
  | toplevel body =>
    have start : State.start naming (Node.dissolvedAll body) =
        (State.start naming body).dissolved := by
      unfold State.start
      rw [Node.varsAll_dissolved]
      rfl
    have walked : walkUnit naming isAsync (Node.dissolvedAll body) =
        ((walkUnit naming isAsync body).1.map id, (walkUnit naming isAsync body).2.dissolved) := by
      have mirrors := (Walk.stmts_mirrors (naming.surface_dissolved isAsync) body).inside "toplevel"
      unfold walkUnit
      rw [start]
      exact mirrors (State.start naming body)
    rw [dissolved, transform, transform, transformBody, transformBody, walked]
    generalize walkUnit naming isAsync body = out
    obtain ⟨r, s⟩ := out
    cases r with
    | error e => rfl
    | ok split =>
      dsimp only [Except.map]
      rw [State.finish_dissolved]
      cases s.finish with
      | error e => rfl
      | ok t => rfl
  | unary side _ _ => cases side <;> rfl
  | _ => rfl

/-! ## §4. Compiling. -/

/-- Payloads and trees are rendered like what they dissolve into. -/
theorem output_dissolved {o : Options} {st st' : Source.Style}
    (source : o.source = Source.render st) (payload : o.payload = Source.render st')
    {t : Transformed} (tree : t.tree = .toplevel (Node.flatten (rebuildAll t.program))) :
    t.dissolved.output o = t.output o := by
  have code : toCode o.payload (Instr.dissolvedAll t.program) = toCode o.payload t.program := by
    rw [payload]
    exact serializeAll_dissolved (Source.render_dissolved st') [] 0 t.program
  have text : o.source (.toplevel (Node.flatten (rebuildAll (Instr.dissolvedAll t.program)))) =
      o.source t.tree := by
    rw [tree, source]
    refine Source.render_toplevel st ?_
    rw [Source.statements_flatten, Source.statements_flatten,
      ← Source.statements_dissolved 0 (rebuildAll (Instr.dissolvedAll t.program)),
      (rebuildAll_dissolved t.program).dissolvedAll_eq, Source.statements_dissolved]
  unfold Transformed.output
  simp only [Transformed.dissolved, code, text]

/-- A unit is compiled to the same as what it dissolves into, or fails alike. -/
theorem compile_dissolved {o : Options} {st st' : Source.Style}
    (source : o.source = Source.render st) (payload : o.payload = Source.render st') (unit : Node) :
    compile o unit.dissolved = compile o unit := by
  have outputs :
      ((transform o.naming o.isAsync unit).1.map Transformed.dissolved >>= (·.output o)) =
      ((transform o.naming o.isAsync unit).1 >>= (·.output o)) := by
    cases ht : (transform o.naming o.isAsync unit).1 with
    | error e => rfl
    | ok t => exact output_dissolved source payload (transform_tree ht)
  unfold compile
  rw [transform_dissolved]
  dsimp only
  rw [outputs]

/-- A splice that is an element of a statement list, anywhere in a tree, can be replaced by its
    nodes.  The tree reads the same in every style, and compiles to the same source, code, local
    names and figures, or to the same failure, with the same log. -/
theorem compile_inlines {n n' : Node} (h : n.Inlines n') :
    (∀ st : Source.Style, Source.render st n' = Source.render st n) ∧
    (∀ (naming : Naming) (isAsync : String → Bool) (st st' : Source.Style),
      let o : Options :=
        { naming, isAsync, source := Source.render st, payload := Source.render st' }
      compile o n' = compile o n) := by
  refine ⟨fun st => ?_, fun naming isAsync st st' => ?_⟩
  · rw [← Source.render_dissolved st n', ← h.dissolved_eq, Source.render_dissolved]
  · intro o
    rw [← compile_dissolved rfl rfl n', ← h.dissolved_eq, compile_dissolved rfl rfl]

/-- A splice within a splice, `var x = 1; y = x;`, next to a loop that is passed through and has a
    splice of its own; the inner one is inlined. -/
theorem compile_inlines_nested :
    let first : Node := .var [("x", .num "1")]
    let second : Node := .stat (.assign "" (.name "y") (.name "x"))
    let last : Node := .whileLoop (.name "x") (.block [.splice [.breakTo ""]])
    let unit : Node := .toplevel [.splice [first, .splice [second]], last]
    let inlined : Node := .toplevel [.splice [first, second], last]
    let o : Options :=
      { isAsync := Convention.usual.isAsync, source := Source.render .oneLine }
    unit.Inlines inlined ∧
      (∀ st, Source.render st inlined = Source.render st unit) ∧
      compile o inlined = compile o unit ∧
      okAnd (compile o unit).1 (fun out =>
        out.locals == ["x"] &&
        out.source ==
          "$$locals.x = 1; y = $$locals.x; while ($$locals.x) \x7b break; \x7d") = true := by
  intro first second last unit inlined o
  have inlines : unit.Inlines inlined :=
    .inside (.listed .toplevel [] [last]) (.here .splice [first] [second] [])
  obtain ⟨renders, compiles⟩ := compile_inlines inlines
  exact ⟨inlines, renders, compiles {} o.isAsync .oneLine .oneLine, by decide +kernel⟩

end Resumable.Program
