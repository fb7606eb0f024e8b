/-
  Resumable.Proofs.Splices.Dissolving — trees without splices in their statement lists.

  A splice that is an element of a statement list stands for its nodes, one after the other.
  `Inlines` puts the nodes of one such splice in its place, wherever in a tree it stands;
  `dissolved` does so with all of them at once.  Since it does not matter in which order this is
  done, a tree and one that a splice was inlined in dissolve into the same tree, and whatever cannot
  tell a tree from what it dissolves into cannot tell the two apart.

  Main statements:
    * `exists_hole`          — `Inlines` reaches every operand of a node;
    * `Inlines.dissolved_eq` — inlining a splice does not change what a tree dissolves into.
-/
import Resumable.Proofs.Tree.Traversal
import Resumable.Proofs.Walk.Appending

namespace Resumable.Node

/-! ## §1. Dissolving. -/

/-- What an element contributes to the statement list it stands in, once there are no splices in
    it. -/
def members : Node → List Node
  | splice nodes => nodes
  | n => [n]

mutual

/-- A tree with every splice in a statement list replaced by its nodes. -/
def dissolved : Node → Node
  | n@absent | n@(name _) | n@(num _) | n@(string _) | n@(atom _) | n@(regexp _ _)
  | n@(breakTo _) | n@(continueTo _) | n@debugger => n
  | array es => array (dissolvedEach es)
  | object ps => object (dissolvedFields ps)
  | call c as => call (dissolved c) (dissolvedEach as)
  | new c as => new (dissolved c) (dissolvedEach as)
  | binary op l r => binary op (dissolved l) (dissolved r)
  | unary side op e => unary side op (dissolved e)
  | assign op t v => assign op (dissolved t) (dissolved v)
  | dot b f => dot (dissolved b) f
  | sub b i => sub (dissolved b) (dissolved i)
  | conditional t y n => conditional (dissolved t) (dissolved y) (dissolved n)
  | seq es => seq (dissolvedEach es)
  | function f ps b => function f ps (dissolvedAll b)
  | stat e => stat (dissolved e)
  | var ds => var (dissolvedFields ds)
  | const ds => const (dissolvedFields ds)
  | block b => block (dissolvedAll b)
  | ifElse c y n => ifElse (dissolved c) (dissolved y) (dissolved n)
  | forLoop i c s b => forLoop (dissolved i) (dissolved c) (dissolved s) (dissolved b)
  | forIn i o b => forIn (dissolved i) (dissolved o) (dissolved b)
  | whileLoop c b => whileLoop (dissolved c) (dissolved b)
  | doLoop c b => doLoop (dissolved c) (dissolved b)
  | label l b => label l (dissolved b)
  | ret v => ret (dissolved v)
  | throw v => throw (dissolved v)
  | tryCatch b h f => tryCatch (dissolvedAll b) (dissolvedHandler h) (dissolvedFinalizer f)
  | switch d cs => switch (dissolved d) (dissolvedCases cs)
  | withObject o b => withObject (dissolved o) (dissolved b)
  | defun f ps b => defun f ps (dissolvedAll b)
  | toplevel b => toplevel (dissolvedAll b)
  | splice ns => splice (dissolvedAll ns)

/-- A statement list with the nodes of its splices in their place. -/
def dissolvedAll : List Node → List Node
  | [] => []
  | n :: rest => (dissolved n).members ++ dissolvedAll rest

/-- The members of a list that is none of statements. -/
def dissolvedEach : List Node → List Node
  | [] => []
  | n :: rest => dissolved n :: dissolvedEach rest

/-- The values of named fields. -/
def dissolvedFields : List (String × Node) → List (String × Node)
  | [] => []
  | (k, n) :: rest => (k, dissolved n) :: dissolvedFields rest

/-- A catch clause. -/
def dissolvedHandler : Option (String × List Node) → Option (String × List Node)
  | none => none
  | some (x, b) => some (x, dissolvedAll b)

/-- A `finally` list. -/
def dissolvedFinalizer : Option (List Node) → Option (List Node)
  | none => none
  | some b => some (dissolvedAll b)

/-- The clauses of a switch. -/
def dissolvedCases : List (Node × List Node) → List (Node × List Node)
  | [] => []
  | (t, b) :: rest => (dissolved t, dissolvedAll b) :: dissolvedCases rest

end

/-! ## §2. Lists. -/

theorem dissolvedAll_append (xs ys : List Node) :
    dissolvedAll (xs ++ ys) = dissolvedAll xs ++ dissolvedAll ys := by
  induction xs with
  | nil => rfl
  | cons x xs ih => rw [List.cons_append, dissolvedAll, dissolvedAll, ih, List.append_assoc]

/-- A splice contributes what its nodes contribute. -/
theorem dissolvedAll_splice (nodes rest : List Node) :
    dissolvedAll (splice nodes :: rest) = dissolvedAll (nodes ++ rest) := by
  rw [dissolvedAll_append, dissolvedAll, dissolved, members]

theorem dissolvedAll_eq (ns : List Node) :
    dissolvedAll ns = (ns.map dissolved).flatMap members := by
  induction ns with
  | nil => rfl
  | cons n ns ih => rw [dissolvedAll, ih, List.map_cons, List.flatMap_cons]

theorem dissolvedEach_eq (es : List Node) : dissolvedEach es = es.map dissolved := by
  induction es with
  | nil => rfl
  | cons e es ih => rw [dissolvedEach, ih, List.map_cons]

theorem dissolvedFields_eq (ps : List (String × Node)) :
    dissolvedFields ps = ps.map (fun p => (p.1, p.2.dissolved)) := by
  induction ps with
  | nil => rfl
  | cons p ps ih => rw [dissolvedFields, ih, List.map_cons]

theorem dissolvedCases_eq (cs : List (Node × List Node)) :
    dissolvedCases cs = cs.map (fun c => (c.1.dissolved, dissolvedAll c.2)) := by
  induction cs with
  | nil => rfl
  | cons c cs ih => rw [dissolvedCases, ih, List.map_cons]

/-- What an element contributes: the nodes in it if it is a splice, and itself otherwise. -/
theorem members_of_ne {n : Node} (h : ∀ nodes, n ≠ splice nodes) : n.members = [n] := by
  cases n with
  | splice nodes => exact absurd rfl (h nodes)
  | _ => rfl

/-! ## §3. What is kept. -/

/-- Dissolving keeps the kind of a node. -/
@[simp] theorem kind?_dissolved (n : Node) : n.dissolved.kind? = n.kind? := by
  cases n with
  | unary side _ _ => cases side <;> rfl
  | _ => rfl

@[simp] theorem tag_dissolved (n : Node) : n.dissolved.tag = n.tag := by
  rw [tag, kind?_dissolved, tag]

@[simp] theorem isExpression_dissolved (n : Node) : n.dissolved.isExpression = n.isExpression :=
  congrArg (·.any Kind.isExpression) (kind?_dissolved n)

@[simp] theorem isAbsent_dissolved (n : Node) : n.dissolved.isAbsent = n.isAbsent := by
  cases n <;> rfl

theorem dissolved_ne_splice {n : Node} (h : ∀ nodes, n ≠ splice nodes) (nodes : List Node) :
    n.dissolved ≠ splice nodes := by
  cases n with
  | splice ns => exact absurd rfl (h ns)
  | _ => exact Node.noConfusion

theorem varsAll_members (n : Node) : varsAll n.members = n.vars := by
  cases n with
  | splice nodes => rfl
  | _ => exact List.append_nil _

mutual

/-- A dissolved tree declares the same names. -/
@[simp] theorem vars_dissolved (n : Node) : n.dissolved.vars = n.vars := by
  cases n with
  | var ds =>
    rw [dissolved, vars, vars, dissolvedFields_eq, List.map_map]
    rfl
  | block b | splice b | defun _ _ b => rw [dissolved, vars, vars, varsAll_dissolved b]
  | ifElse _ a b | forLoop a _ _ b | forIn a _ b =>
    rw [dissolved, vars, vars, vars_dissolved a, vars_dissolved b]
  | whileLoop _ b | doLoop _ b | label _ b | withObject _ b =>
    rw [dissolved, vars, vars, vars_dissolved b]
  | tryCatch b h f =>
    rw [dissolved]
    rcases h with _ | ⟨x, hb⟩ <;> rcases f with _ | fb
    · simp only [vars, dissolvedHandler, dissolvedFinalizer, varsAll_dissolved b]
    · simp only [vars, dissolvedHandler, dissolvedFinalizer, varsAll_dissolved b,
        varsAll_dissolved fb]
    · simp only [vars, dissolvedHandler, dissolvedFinalizer, varsAll_dissolved b,
        varsAll_dissolved hb]
    · simp only [vars, dissolvedHandler, dissolvedFinalizer, varsAll_dissolved b,
        varsAll_dissolved hb, varsAll_dissolved fb]
  | switch _ cs => rw [dissolved, vars, vars, varsCases_dissolved cs]
  | _ => rfl
termination_by structural n

@[simp] theorem varsAll_dissolved (ns : List Node) : varsAll (dissolvedAll ns) = varsAll ns := by
  cases ns with
  | nil => rfl
  | cons n rest =>
    rw [dissolvedAll, varsAll_append, varsAll_members, varsAll, vars_dissolved n,
      varsAll_dissolved rest]
termination_by structural ns

theorem varsCases_dissolved (cs : List (Node × List Node)) :
    varsCases (dissolvedCases cs) = varsCases cs := by
  cases cs with
  | nil => rfl
  | cons c rest =>
    obtain ⟨t, b⟩ := c
    rw [dissolvedCases, varsCases, varsCases, varsAll_dissolved b, varsCases_dissolved rest]
termination_by structural cs

end

theorem dissolvedAll_members (n : Node) : dissolvedAll n.members = n.dissolved.members := by
  cases n with
  | splice nodes => rfl
  | _ => exact List.append_nil _

mutual

/-- There is nothing left to dissolve in a dissolved tree. -/
@[simp] theorem dissolved_dissolved (n : Node) : n.dissolved.dissolved = n.dissolved := by
  cases n with
  | absent | name _ | num _ | string _ | atom _ | regexp _ _ | breakTo _ | continueTo _
  | debugger => rfl
  | array es | seq es => rw [dissolved, dissolved, dissolvedEach_dissolved es]
  | object ps | var ps | const ps => rw [dissolved, dissolved, dissolvedFields_dissolved ps]
  | call c as | new c as =>
    rw [dissolved, dissolved, dissolved_dissolved c, dissolvedEach_dissolved as]
  | unary _ _ a | dot a _ | stat a | label _ a | ret a | throw a =>
    rw [dissolved, dissolved, dissolved_dissolved a]
  | binary _ a b | assign _ a b | sub a b | whileLoop a b | doLoop a b | withObject a b =>
    rw [dissolved, dissolved, dissolved_dissolved a, dissolved_dissolved b]
  | conditional a b c | ifElse a b c | forIn a b c =>
    rw [dissolved, dissolved, dissolved_dissolved a, dissolved_dissolved b, dissolved_dissolved c]
  | forLoop i c s b =>
    rw [dissolved, dissolved, dissolved_dissolved i, dissolved_dissolved c, dissolved_dissolved s,
      dissolved_dissolved b]
  | function _ _ b | block b | defun _ _ b | toplevel b | splice b =>
    rw [dissolved, dissolved, dissolvedAll_dissolved b]
  | tryCatch b h f =>
    rw [dissolved, dissolved, dissolvedAll_dissolved b, dissolvedHandler_dissolved h,
      dissolvedFinalizer_dissolved f]
  | switch d cs => rw [dissolved, dissolved, dissolved_dissolved d, dissolvedCases_dissolved cs]
termination_by structural n

theorem dissolvedAll_dissolved (ns : List Node) :
    dissolvedAll (dissolvedAll ns) = dissolvedAll ns := by
  cases ns with
  | nil => rfl
  | cons n rest =>
    rw [dissolvedAll, dissolvedAll_append, dissolvedAll_members, dissolved_dissolved n,
      dissolvedAll_dissolved rest]
termination_by structural ns

theorem dissolvedEach_dissolved (es : List Node) :
    dissolvedEach (dissolvedEach es) = dissolvedEach es := by
  cases es with
  | nil => rfl
  | cons e rest =>
    rw [dissolvedEach, dissolvedEach, dissolved_dissolved e, dissolvedEach_dissolved rest]
termination_by structural es

theorem dissolvedFields_dissolved (ps : List (String × Node)) :
    dissolvedFields (dissolvedFields ps) = dissolvedFields ps := by
  cases ps with
  | nil => rfl
  | cons p rest =>
    obtain ⟨k, n⟩ := p
    rw [dissolvedFields, dissolvedFields, dissolved_dissolved n, dissolvedFields_dissolved rest]
termination_by structural ps

theorem dissolvedHandler_dissolved (h : Option (String × List Node)) :
    dissolvedHandler (dissolvedHandler h) = dissolvedHandler h := by
  rcases h with _ | ⟨x, b⟩
  · rfl
  · rw [dissolvedHandler, dissolvedHandler, dissolvedAll_dissolved b]
termination_by structural h

theorem dissolvedFinalizer_dissolved (f : Option (List Node)) :
    dissolvedFinalizer (dissolvedFinalizer f) = dissolvedFinalizer f := by
  rcases f with _ | b
  · rfl
  · rw [dissolvedFinalizer, dissolvedFinalizer, dissolvedAll_dissolved b]
termination_by structural f

theorem dissolvedCases_dissolved (cs : List (Node × List Node)) :
    dissolvedCases (dissolvedCases cs) = dissolvedCases cs := by
  cases cs with
  | nil => rfl
  | cons c rest =>
    obtain ⟨t, b⟩ := c
    rw [dissolvedCases, dissolvedCases, dissolved_dissolved t, dissolvedAll_dissolved b,
      dissolvedCases_dissolved rest]
termination_by structural cs

end

/-! ## §4. Inlining one splice. -/

/-- The statement lists of a tree: what is around one. -/
inductive Listing : (List Node → Node) → Prop
  | toplevel : Listing toplevel
  | block : Listing block
  | splice : Listing splice
  | function (name : String) (params : List String) : Listing (function name params)
  | defun (name : String) (params : List String) : Listing (defun name params)
  | body (h : Option (String × List Node)) (f : Option (List Node)) :
      Listing (fun ns => tryCatch ns h f)
  | handler (b : List Node) (x : String) (f : Option (List Node)) :
      Listing (fun ns => tryCatch b (some (x, ns)) f)
  | finalizer (b : List Node) (h : Option (String × List Node)) :
      Listing (fun ns => tryCatch b h (some ns))
  | clause (d : Node) (before : List (Node × List Node)) (test : Node)
      (after : List (Node × List Node)) :
      Listing (fun ns => switch d (before ++ (test, ns) :: after))

/-- The operands of a node: what is around one. -/
inductive Hole : (Node → Node) → Prop
  /-- An element of a statement list. -/
  | listed {build : List Node → Node} (hb : Listing build) (before after : List Node) :
      Hole (fun n => build (before ++ n :: after))
  | array (before after : List Node) : Hole (fun n => array (before ++ n :: after))
  | seq (before after : List Node) : Hole (fun n => seq (before ++ n :: after))
  | object (before : List (String × Node)) (key : String) (after : List (String × Node)) :
      Hole (fun n => object (before ++ (key, n) :: after))
  | var (before : List (String × Node)) (x : String) (after : List (String × Node)) :
      Hole (fun n => var (before ++ (x, n) :: after))
  | const (before : List (String × Node)) (x : String) (after : List (String × Node)) :
      Hole (fun n => const (before ++ (x, n) :: after))
  | callee (as : List Node) : Hole (fun n => call n as)
  | argument (c : Node) (before after : List Node) : Hole (fun n => call c (before ++ n :: after))
  | newCallee (as : List Node) : Hole (fun n => new n as)
  | newArgument (c : Node) (before after : List Node) : Hole (fun n => new c (before ++ n :: after))
  | binaryLeft (op : String) (r : Node) : Hole (fun n => binary op n r)
  | binaryRight (op : String) (l : Node) : Hole (fun n => binary op l n)
  | unary (side : Side) (op : String) : Hole (unary side op)
  | assignTarget (op : String) (v : Node) : Hole (fun n => assign op n v)
  | assignValue (op : String) (t : Node) : Hole (fun n => assign op t n)
  | dot (f : String) : Hole (fun n => dot n f)
  | subBase (i : Node) : Hole (fun n => sub n i)
  | subIndex (b : Node) : Hole (fun n => sub b n)
  | conditionalTest (y e : Node) : Hole (fun n => conditional n y e)
  | conditionalYes (t e : Node) : Hole (fun n => conditional t n e)
  | conditionalNo (t y : Node) : Hole (fun n => conditional t y n)
  | stat : Hole stat
  | ifCond (y e : Node) : Hole (fun n => ifElse n y e)
  | ifYes (c e : Node) : Hole (fun n => ifElse c n e)
  | ifNo (c y : Node) : Hole (fun n => ifElse c y n)
  | forInit (c s b : Node) : Hole (fun n => forLoop n c s b)
  | forCond (i s b : Node) : Hole (fun n => forLoop i n s b)
  | forStep (i c b : Node) : Hole (fun n => forLoop i c n b)
  | forBody (i c s : Node) : Hole (fun n => forLoop i c s n)
  | forInInit (o b : Node) : Hole (fun n => forIn n o b)
  | forInObject (i b : Node) : Hole (fun n => forIn i n b)
  | forInBody (i o : Node) : Hole (fun n => forIn i o n)
  | whileCond (b : Node) : Hole (fun n => whileLoop n b)
  | whileBody (c : Node) : Hole (fun n => whileLoop c n)
  | doCond (b : Node) : Hole (fun n => doLoop n b)
  | doBody (c : Node) : Hole (fun n => doLoop c n)
  | label (l : String) : Hole (label l)
  | ret : Hole ret
  | throw : Hole throw
  | switchDisc (cs : List (Node × List Node)) : Hole (fun n => switch n cs)
  | clauseTest (d : Node) (before : List (Node × List Node)) (b : List Node)
      (after : List (Node × List Node)) : Hole (fun n => switch d (before ++ (n, b) :: after))
  | withObject (b : Node) : Hole (fun n => withObject n b)
  | withBody (o : Node) : Hole (fun n => withObject o n)

/-- No operand of a node is missing among them. -/
theorem exists_hole {n c : Node} (h : c ∈ n.children) : ∃ build, Hole build ∧ n = build c := by
  have element : ∀ {ns : List Node}, c ∈ ns → ∃ before after, ns = before ++ c :: after :=
    List.append_of_mem
  have field : ∀ {ps : List (String × Node)}, c ∈ ps.map (·.2) →
      ∃ before k after, ps = before ++ (k, c) :: after := by
    intro ps hps
    obtain ⟨⟨k, value⟩, hp, same⟩ := List.mem_map.mp hps
    obtain ⟨before, after, split⟩ := List.append_of_mem hp
    exact ⟨before, k, after, same ▸ split⟩
  have two : ∀ {a b : Node}, c ∈ [a, b] → c = a ∨ c = b := by
    simp
  have three : ∀ {a b d : Node}, c ∈ [a, b, d] → c = a ∨ c = b ∨ c = d := by
    simp
  have listed : ∀ {build : List Node → Node}, Listing build → ∀ {ns : List Node}, c ∈ ns →
      ∃ build', Hole build' ∧ build ns = build' c := by
    intro build hb ns hc
    obtain ⟨before, after, rfl⟩ := element hc
    exact ⟨_, .listed hb before after, rfl⟩
  cases n with
  | absent | name _ | num _ | string _ | atom _ | regexp _ _ | breakTo _ | continueTo _
  | debugger => cases h
  | array es =>
    obtain ⟨before, after, rfl⟩ := element (mem_present h)
    exact ⟨_, .array before after, rfl⟩
  | seq es =>
    obtain ⟨before, after, rfl⟩ := element (mem_present h)
    exact ⟨_, .seq before after, rfl⟩
  | object ps =>
    obtain ⟨before, k, after, rfl⟩ := field (mem_present h)
    exact ⟨_, .object before k after, rfl⟩
  | var ps =>
    obtain ⟨before, k, after, rfl⟩ := field (mem_present h)
    exact ⟨_, .var before k after, rfl⟩
  | const ps =>
    obtain ⟨before, k, after, rfl⟩ := field (mem_present h)
    exact ⟨_, .const before k after, rfl⟩
  | call f as =>
    rcases List.mem_cons.mp (mem_present h) with rfl | hc
    · exact ⟨_, .callee as, rfl⟩
    · obtain ⟨before, after, rfl⟩ := element hc
      exact ⟨_, .argument f before after, rfl⟩
  | new f as =>
    rcases List.mem_cons.mp (mem_present h) with rfl | hc
    · exact ⟨_, .newCallee as, rfl⟩
    · obtain ⟨before, after, rfl⟩ := element hc
      exact ⟨_, .newArgument f before after, rfl⟩
  | function f ps b => exact listed (.function f ps) (mem_present h)
  | defun f ps b => exact listed (.defun f ps) (mem_present h)
  | block b => exact listed .block (mem_present h)
  | toplevel b => exact listed .toplevel (mem_present h)
  | splice b => exact listed .splice (mem_present h)
  | tryCatch b handler last =>
    rcases List.mem_append.mp (mem_present h) with hb | hl
    · rcases List.mem_append.mp hb with hb | hh
      · exact listed (.body handler last) hb
      · rcases handler with _ | ⟨x, hb⟩
        · cases hh
        · exact listed (.handler b x last) hh
    · rcases last with _ | fb
      · cases hl
      · exact listed (.finalizer b handler) hl
  | switch d cs =>
    rcases List.mem_cons.mp (mem_present h) with rfl | hc
    · exact ⟨_, .switchDisc cs, rfl⟩
    · obtain ⟨⟨t, b⟩, hcs, hin⟩ := List.mem_flatMap.mp hc
      obtain ⟨before, after, rfl⟩ := List.append_of_mem hcs
      rcases List.mem_cons.mp hin with rfl | hb
      · exact ⟨_, .clauseTest d before b after, rfl⟩
      · exact listed (.clause d before t after) hb
  | unary side op e =>
    obtain rfl := List.mem_singleton.mp (mem_present h)
    exact ⟨_, .unary side op, rfl⟩
  | dot b f =>
    obtain rfl := List.mem_singleton.mp (mem_present h)
    exact ⟨_, .dot f, rfl⟩
  | stat e =>
    obtain rfl := List.mem_singleton.mp (mem_present h)
    exact ⟨_, .stat, rfl⟩
  | label l b =>
    obtain rfl := List.mem_singleton.mp (mem_present h)
    exact ⟨_, .label l, rfl⟩
  | ret v =>
    obtain rfl := List.mem_singleton.mp (mem_present h)
    exact ⟨_, .ret, rfl⟩
  | throw v =>
    obtain rfl := List.mem_singleton.mp (mem_present h)
    exact ⟨_, .throw, rfl⟩
  | binary op l r =>
    rcases two (mem_present h) with rfl | rfl
    exacts [⟨_, .binaryLeft op r, rfl⟩, ⟨_, .binaryRight op l, rfl⟩]
  | assign op t v =>
    rcases two (mem_present h) with rfl | rfl
    exacts [⟨_, .assignTarget op v, rfl⟩, ⟨_, .assignValue op t, rfl⟩]
  | sub b i =>
    rcases two (mem_present h) with rfl | rfl
    exacts [⟨_, .subBase i, rfl⟩, ⟨_, .subIndex b, rfl⟩]
  | whileLoop q b =>
    rcases two (mem_present h) with rfl | rfl
    exacts [⟨_, .whileCond b, rfl⟩, ⟨_, .whileBody q, rfl⟩]
  | doLoop q b =>
    rcases two (mem_present h) with rfl | rfl
    exacts [⟨_, .doBody q, rfl⟩, ⟨_, .doCond b, rfl⟩]
  | withObject o b =>
    rcases two (mem_present h) with rfl | rfl
    exacts [⟨_, .withObject b, rfl⟩, ⟨_, .withBody o, rfl⟩]
  | conditional t y e =>
    rcases three (mem_present h) with rfl | rfl | rfl
    exacts [⟨_, .conditionalTest y e, rfl⟩, ⟨_, .conditionalYes t e, rfl⟩,
      ⟨_, .conditionalNo t y, rfl⟩]
  | ifElse q y e =>
    rcases three (mem_present h) with rfl | rfl | rfl
    exacts [⟨_, .ifCond y e, rfl⟩, ⟨_, .ifYes q e, rfl⟩, ⟨_, .ifNo q y, rfl⟩]
  | forIn i o b =>
    rcases three (mem_present h) with rfl | rfl | rfl
    exacts [⟨_, .forInInit o b, rfl⟩, ⟨_, .forInObject i b, rfl⟩, ⟨_, .forInBody i o, rfl⟩]
  | forLoop i q s b =>
    rcases List.mem_cons.mp (mem_present h) with rfl | h
    · exact ⟨_, .forInit q s b, rfl⟩
    · rcases three h with rfl | rfl | rfl
      exacts [⟨_, .forCond i s b, rfl⟩, ⟨_, .forStep i q b, rfl⟩,
        ⟨_, .forBody i q s, rfl⟩]

/-- One splice that is an element of a statement list, anywhere in a tree, is replaced by its
    nodes. -/
inductive Inlines : Node → Node → Prop
  | here {build : List Node → Node} (hb : Listing build) (before nodes after : List Node) :
      Inlines (build (before ++ splice nodes :: after)) (build (before ++ nodes ++ after))
  | inside {build : Node → Node} (hb : Hole build) {n n' : Node} (h : Inlines n n') :
      Inlines (build n) (build n')

/-- Lists that dissolve into the same are around the same. -/
theorem Listing.dissolved_congr {build : List Node → Node} (hb : Listing build)
    {ns ns' : List Node} (h : dissolvedAll ns = dissolvedAll ns') :
    (build ns).dissolved = (build ns').dissolved := by
  cases hb with
  | clause d before test after =>
    simp only [dissolved, dissolvedCases_eq, List.map_append, List.map_cons, h]
  | _ => simp only [dissolved, dissolvedHandler, dissolvedFinalizer, h]

/-- Operands that dissolve into the same are too. -/
theorem Hole.dissolved_congr {build : Node → Node} (hb : Hole build) {n n' : Node}
    (h : n.dissolved = n'.dissolved) : (build n).dissolved = (build n').dissolved := by
  cases hb with
  | listed hb before after =>
    refine hb.dissolved_congr ?_
    rw [dissolvedAll_append, dissolvedAll, h, dissolvedAll_append, dissolvedAll]
  | _ =>
    simp only [dissolved, dissolvedEach_eq, dissolvedFields_eq, dissolvedCases_eq,
      List.map_append, List.map_cons, h]

/-- A tree dissolves into the same as one that a splice was inlined in. -/
theorem Inlines.dissolved_eq {n n' : Node} (h : Inlines n n') : n.dissolved = n'.dissolved := by
  induction h with
  | here hb before nodes after =>
    refine hb.dissolved_congr ?_
    rw [dissolvedAll_append, dissolvedAll_splice, ← dissolvedAll_append, List.append_assoc]
  | inside hb _ ih => exact hb.dissolved_congr ih

end Resumable.Node
