/-
  Resumable.Proofs.Tree.Operands — a node taken apart.

  A node is its kind, what it holds besides trees, and its operands, each in a field of its own:
  `kind?`, `scalars` and `operands` say which, empty positions and the indices of lists included.
  Two nodes that agree in the three are one (`eq_of_parts`), so the three leave nothing out.
  `mapOperands` puts another tree at every position and keeps the rest.
-/
import Resumable.Proofs.Tree.Traversal

namespace Resumable.Node

/-! ## §1. Kind, scalars and operands. -/

/-- Where an operand stands: the field of the node and, if that is a list, the index in it. -/
structure Site where
  field : String
  index : List Nat := []
  deriving DecidableEq, Repr

/-- The trees of a list, each at its position in the field. -/
def listed (field : String) (ns : List Node) : List (Site × Node) :=
  ns.zipIdx.map (fun p => (⟨field, [p.2]⟩, p.1))

/-- The test and the body of a switch clause, at the clause's own index. -/
def clause (c : (Node × List Node) × Nat) : List (Site × Node) :=
  (⟨"test", [c.2]⟩, c.1.1) :: c.1.2.zipIdx.map (fun p => (⟨"body", [c.2, p.2]⟩, p.1))

/-- The operands of a node with their positions, in evaluation order.  Empty positions are listed
    too. -/
def operands : Node → List (Site × Node)
  | absent | name _ | num _ | string _ | atom _ | regexp _ _ | breakTo _ | continueTo _
  | debugger => []
  | array es => listed "elements" es
  | object ps => listed "props" (ps.map (·.2))
  | call c as => (⟨"callee", []⟩, c) :: listed "args" as
  | new c as => (⟨"callee", []⟩, c) :: listed "args" as
  | binary _ l r => [(⟨"left", []⟩, l), (⟨"right", []⟩, r)]
  | unary _ _ e => [(⟨"operand", []⟩, e)]
  | assign _ t v => [(⟨"target", []⟩, t), (⟨"value", []⟩, v)]
  | dot b _ => [(⟨"base", []⟩, b)]
  | sub b i => [(⟨"base", []⟩, b), (⟨"index", []⟩, i)]
  | conditional t y n => [(⟨"test", []⟩, t), (⟨"then", []⟩, y), (⟨"else", []⟩, n)]
  | seq es => listed "exprs" es
  | function _ _ b => listed "body" b
  | stat e => [(⟨"expr", []⟩, e)]
  | var ds => listed "defs" (ds.map (·.2))
  | const ds => listed "defs" (ds.map (·.2))
  | block b => listed "body" b
  | ifElse c y n => [(⟨"cond", []⟩, c), (⟨"then", []⟩, y), (⟨"else", []⟩, n)]
  | forLoop i c s b =>
      [(⟨"init", []⟩, i), (⟨"cond", []⟩, c), (⟨"step", []⟩, s), (⟨"body", []⟩, b)]
  | forIn i o b => [(⟨"init", []⟩, i), (⟨"object", []⟩, o), (⟨"body", []⟩, b)]
  | whileLoop c b => [(⟨"cond", []⟩, c), (⟨"body", []⟩, b)]
  | doLoop c b => [(⟨"body", []⟩, b), (⟨"cond", []⟩, c)]
  | label _ b => [(⟨"body", []⟩, b)]
  | ret v => [(⟨"value", []⟩, v)]
  | throw v => [(⟨"value", []⟩, v)]
  | tryCatch b h f =>
      listed "body" b ++ listed "catch" ((h.map (·.2)).getD []) ++ listed "finally" (f.getD [])
  | switch d cs => (⟨"disc", []⟩, d) :: cs.zipIdx.flatMap clause
  | withObject o b => [(⟨"object", []⟩, o), (⟨"body", []⟩, b)]
  | defun _ _ b => listed "body" b
  | toplevel b => listed "body" b
  | splice ns => listed "nodes" ns

/-- What a node holds besides its operands, field by field.  On which side a unary operator stands
    is part of the kind. -/
def scalars : Node → List (String × String)
  | name id => [("name", id)]
  | num text => [("value", text)]
  | string value => [("value", value)]
  | atom word => [("value", word)]
  | regexp pattern flags => [("pattern", pattern), ("flags", flags)]
  | object ps => ps.map (fun p => ("key", p.1))
  | binary op _ _ => [("op", op)]
  | unary _ op _ => [("op", op)]
  | assign op _ _ => [("op", op)]
  | dot _ field => [("field", field)]
  | function f ps _ => ("name", f) :: ps.map (fun p => ("param", p))
  | var ds => ds.map (fun d => ("name", d.1))
  | const ds => ds.map (fun d => ("name", d.1))
  | breakTo l => [("label", l)]
  | continueTo l => [("label", l)]
  | label l _ => [("label", l)]
  | tryCatch _ h f =>
      -- which clauses there are: an empty `finally` has no operand and still is one
      (h.map (fun c => ("catch", c.1))).toList ++ (f.map (fun _ => ("finally", ""))).toList
  | defun f ps _ => ("name", f) :: ps.map (fun p => ("param", p))
  | _ => []

/-- The node with other trees for its operands. -/
def mapOperands (f : Node → Node) : Node → Node
  | array es => array (es.map f)
  | object ps => object (ps.map (fun p => (p.1, f p.2)))
  | call c as => call (f c) (as.map f)
  | new c as => new (f c) (as.map f)
  | binary op l r => binary op (f l) (f r)
  | unary side op e => unary side op (f e)
  | assign op t v => assign op (f t) (f v)
  | dot b field => dot (f b) field
  | sub b i => sub (f b) (f i)
  | conditional t y n => conditional (f t) (f y) (f n)
  | seq es => seq (es.map f)
  | function x ps b => function x ps (b.map f)
  | stat e => stat (f e)
  | var ds => var (ds.map (fun d => (d.1, f d.2)))
  | const ds => const (ds.map (fun d => (d.1, f d.2)))
  | block b => block (b.map f)
  | ifElse c y n => ifElse (f c) (f y) (f n)
  | forLoop i c s b => forLoop (f i) (f c) (f s) (f b)
  | forIn i o b => forIn (f i) (f o) (f b)
  | whileLoop c b => whileLoop (f c) (f b)
  | doLoop c b => doLoop (f c) (f b)
  | label l b => label l (f b)
  | ret v => ret (f v)
  | throw v => throw (f v)
  | tryCatch b h fin =>
      tryCatch (b.map f) (h.map (fun c => (c.1, c.2.map f))) (fin.map (fun b => b.map f))
  | switch d cs => switch (f d) (cs.map (fun c => (f c.1, c.2.map f)))
  | withObject o b => withObject (f o) (f b)
  | defun x ps b => defun x ps (b.map f)
  | toplevel b => toplevel (b.map f)
  | splice ns => splice (ns.map f)
  | n => n

/-! ## §2. The operands are the children, and their positions differ. -/

@[simp] theorem map_snd_listed (field : String) (ns : List Node) :
    (listed field ns).map (·.2) = ns := by
  simp [listed, Function.comp_def]

theorem map_snd_clauses (cs : List (Node × List Node)) (k : Nat) :
    ((cs.zipIdx k).flatMap clause).map (·.2) = cs.flatMap (fun c => c.1 :: c.2) := by
  induction cs generalizing k with
  | nil => rfl
  | cons c cs ih =>
    rw [List.zipIdx_cons, List.flatMap_cons, List.map_append, ih, List.flatMap_cons]
    simp [clause, Function.comp_def]

/-- The children are the operands that are there. -/
theorem children_eq_present (n : Node) : n.children = present (n.operands.map (·.2)) := by
  cases n with
  | switch d cs => simp [children, operands, map_snd_clauses]
  | absent | name _ | num _ | string _ | atom _ | regexp _ _ | breakTo _ | continueTo _
  | debugger => rfl
  | _ => simp [children, operands]

/-- Below a node that is entered stand its operands. -/
theorem inspect_eq_operands (enter : Node → Bool) {n : Node} (hn : n.isAbsent = false)
    (he : enter n = true) :
    n.inspect enter = n :: (n.operands.map (·.2)).flatMap (inspect enter) := by
  rw [inspect_eq enter hn he, children_eq_present, flatMap_present_of _ (by rw [inspect])]

/-! ## §3. A node is its parts. -/

theorem listed_inj {field : String} {xs ys : List Node} (h : listed field xs = listed field ys) :
    xs = ys := by
  rw [← map_snd_listed field xs, h, map_snd_listed]

/-- Named trees are their names and their trees. -/
theorem named_eq {what : String} {ps qs : List (String × Node)}
    (hnames : ps.map (fun p => (what, p.1)) = qs.map (fun p => (what, p.1)))
    (htrees : ps.map (·.2) = qs.map (·.2)) : ps = qs := by
  induction ps generalizing qs with
  | nil => exact (List.map_eq_nil_iff.mp htrees.symm).symm
  | cons p ps ih =>
    cases qs with
    | nil => cases htrees
    | cons q qs =>
      simp only [List.map_cons, List.cons.injEq, Prod.mk.injEq, true_and] at hnames htrees
      rw [ih hnames.2 htrees.2, Prod.ext hnames.1 htrees.1]

/-- The trees in one field. -/
def inField (field : String) (os : List (Site × Node)) : List Node :=
  (os.filter (fun o => o.1.field = field)).map (·.2)

theorem inField_append (field : String) (os os' : List (Site × Node)) :
    inField field (os ++ os') = inField field os ++ inField field os' := by
  simp [inField]

theorem field_of_mem_listed {field : String} {ns : List Node} {o : Site × Node}
    (h : o ∈ listed field ns) : o.1.field = field := by
  obtain ⟨p, -, rfl⟩ := List.mem_map.mp h
  rfl

theorem inField_listed (field other : String) (ns : List Node) :
    inField field (listed other ns) = if other = field then ns else [] := by
  by_cases h : other = field
  · have hall : (listed other ns).filter (fun o => o.1.field = field) = listed other ns :=
      List.filter_eq_self.mpr fun o ho => decide_eq_true ((field_of_mem_listed ho).trans h)
    rw [inField, hall, map_snd_listed, if_pos h]
  · have hnone : (listed other ns).filter (fun o => o.1.field = field) = [] :=
      List.filter_eq_nil_iff.mpr fun o ho heq =>
        h ((field_of_mem_listed ho).symm.trans (of_decide_eq_true heq))
    rw [inField, hnone, if_neg h, List.map_nil]

/-- A try statement is its three lists and which of its clauses there are. -/
theorem tryCatch_eq {b b' : List Node} {h h' : Option (String × List Node)}
    {f f' : Option (List Node)} (hs : (tryCatch b h f).scalars = (tryCatch b' h' f').scalars)
    (ho : (tryCatch b h f).operands = (tryCatch b' h' f').operands) :
    tryCatch b h f = tryCatch b' h' f' := by
  have hbody := congrArg (inField "body") ho
  have hcatch := congrArg (inField "catch") ho
  have hfinally := congrArg (inField "finally") ho
  simp only [operands, inField_append, inField_listed, String.reduceEq, reduceIte,
    List.append_nil, List.nil_append] at hbody hcatch hfinally
  cases h <;> cases h' <;> cases f <;> cases f' <;> simp_all [scalars, Prod.ext_iff]

/-- The body of a clause ends where the next test stands. -/
theorem body_eq_takeWhile (b : List Node) (k : Nat) (cs : List (Node × List Node)) (j : Nat) :
    (b.zipIdx.map (fun p => ((⟨"body", [k, p.2]⟩ : Site), p.1)) ++
        (cs.zipIdx j).flatMap clause).takeWhile (fun o => o.1.field = "body") =
      b.zipIdx.map (fun p => (⟨"body", [k, p.2]⟩, p.1)) := by
  have hbody : ∀ o ∈ b.zipIdx.map (fun p => ((⟨"body", [k, p.2]⟩ : Site), p.1)),
      decide (o.1.field = "body") = true := by
    intro o ho
    obtain ⟨p, -, rfl⟩ := List.mem_map.mp ho
    rfl
  rw [List.takeWhile_append_of_pos hbody]
  cases cs with
  | nil => simp
  | cons c cs => simp [clause]

theorem clauses_inj {cs ds : List (Node × List Node)} {k : Nat}
    (h : (cs.zipIdx k).flatMap clause = (ds.zipIdx k).flatMap clause) : cs = ds := by
  induction cs generalizing ds k with
  | nil =>
    cases ds with
    | nil => rfl
    | cons d ds => simp [clause] at h
  | cons c cs ih =>
    cases ds with
    | nil => simp [clause] at h
    | cons d ds =>
      simp only [List.zipIdx_cons, List.flatMap_cons, clause, List.cons_append, List.cons.injEq,
        Prod.mk.injEq, true_and] at h
      obtain ⟨htest, hrest⟩ := h
      have hbody := congrArg (List.takeWhile (fun o => o.1.field = "body")) hrest
      rw [body_eq_takeWhile, body_eq_takeWhile] at hbody
      rw [hbody] at hrest
      have hb : c.2 = d.2 := by
        simpa [Function.comp_def] using congrArg (List.map (·.2)) hbody
      rw [ih (List.append_cancel_left hrest), Prod.ext htest hb]

/-- The node is built by the constructor that belongs to a kind. -/
def BuiltAs (n : Node) : Option Kind → Prop
  | none => n = absent
  | some .name => ∃ id, n = name id
  | some .num => ∃ text, n = num text
  | some .string => ∃ value, n = string value
  | some .atom => ∃ word, n = atom word
  | some .regexp => ∃ pattern flags, n = regexp pattern flags
  | some .array => ∃ es, n = array es
  | some .object => ∃ ps, n = object ps
  | some .call => ∃ c as, n = call c as
  | some .new => ∃ c as, n = new c as
  | some .binary => ∃ op l r, n = binary op l r
  | some .unaryBefore => ∃ op e, n = unary .before op e
  | some .unaryAfter => ∃ op e, n = unary .after op e
  | some .assign => ∃ op t v, n = assign op t v
  | some .dot => ∃ b field, n = dot b field
  | some .sub => ∃ b i, n = sub b i
  | some .conditional => ∃ t y f, n = conditional t y f
  | some .seq => ∃ es, n = seq es
  | some .function => ∃ f ps b, n = function f ps b
  | some .stat => ∃ e, n = stat e
  | some .var => ∃ ds, n = var ds
  | some .const => ∃ ds, n = const ds
  | some .block => ∃ b, n = block b
  | some .ifElse => ∃ c y f, n = ifElse c y f
  | some .forLoop => ∃ i c s b, n = forLoop i c s b
  | some .forIn => ∃ i o b, n = forIn i o b
  | some .whileLoop => ∃ c b, n = whileLoop c b
  | some .doLoop => ∃ c b, n = doLoop c b
  | some .breakTo => ∃ l, n = breakTo l
  | some .continueTo => ∃ l, n = continueTo l
  | some .debugger => n = debugger
  | some .label => ∃ l b, n = label l b
  | some .ret => ∃ v, n = ret v
  | some .throw => ∃ v, n = throw v
  | some .tryCatch => ∃ b h f, n = tryCatch b h f
  | some .switch => ∃ d cs, n = switch d cs
  | some .withObject => ∃ o b, n = withObject o b
  | some .defun => ∃ f ps b, n = defun f ps b
  | some .toplevel => ∃ b, n = toplevel b
  | some .splice => ∃ ns, n = splice ns

theorem builtAs {n : Node} {k : Option Kind} (h : n.kind? = k) : n.BuiltAs k := by
  subst h
  cases n with
  | absent | debugger => rfl
  | unary side op e => cases side <;> exact ⟨op, e, rfl⟩
  | _ => simp [kind?, BuiltAs]

/-- Kind, scalars and operands leave nothing of a node out. -/
theorem eq_of_parts {n m : Node} (hk : n.kind? = m.kind?) (hs : n.scalars = m.scalars)
    (ho : n.operands = m.operands) : n = m := by
  -- `m` is taken apart by its kind: splitting both nodes would give a case for every pair
  have hm : m.BuiltAs n.kind? := builtAs hk.symm
  clear hk
  cases n with
  | absent | debugger => exact hm.symm
  | unary side _ _ =>
    cases side <;> obtain ⟨_, _, rfl⟩ := hm <;> simp_all [scalars, operands]
  | object | var | const =>
    obtain ⟨_, rfl⟩ := hm
    rw [named_eq hs (listed_inj ho)]
  | switch =>
    obtain ⟨_, _, rfl⟩ := hm
    simp only [operands, List.cons.injEq, Prod.mk.injEq, true_and] at ho
    rw [ho.1, clauses_inj ho.2]
  | tryCatch =>
    obtain ⟨_, _, _, rfl⟩ := hm
    exact tryCatch_eq hs ho
  | function | defun =>
    obtain ⟨_, _, _, rfl⟩ := hm
    simp only [scalars, List.cons.injEq, Prod.mk.injEq, true_and] at hs
    have hparams := (List.map_inj_right (fun _ _ h => (Prod.mk.inj h).2)).mp hs.2
    rw [hs.1, hparams, listed_inj ho]
  | name | num | string | atom | array | seq | stat | block | breakTo | continueTo | ret | throw
  | toplevel | splice =>
    obtain ⟨_, rfl⟩ := hm
    simp only [scalars, operands, List.cons.injEq, Prod.mk.injEq, true_and, and_true] at hs ho
    grind [listed_inj]
  | regexp | call | new | dot | sub | whileLoop | doLoop | label | withObject =>
    obtain ⟨_, _, rfl⟩ := hm
    simp only [scalars, operands, List.cons.injEq, Prod.mk.injEq, true_and, and_true] at hs ho
    grind [listed_inj]
  | binary | assign | conditional | ifElse | forIn =>
    obtain ⟨_, _, _, rfl⟩ := hm
    simp only [scalars, operands, List.cons.injEq, Prod.mk.injEq, true_and, and_true] at hs ho
    grind
  | forLoop =>
    obtain ⟨_, _, _, _, rfl⟩ := hm
    simp only [operands, List.cons.injEq, Prod.mk.injEq, true_and, and_true] at ho
    grind

/-! ## §4. Other trees for the operands. -/

/-- What is at every position of `n` is in `m` at the same one, changed by `f`; the rest is the
    same. -/
structure RebuiltBy (f : Node → Node) (n m : Node) : Prop where
  kind : m.kind? = n.kind?
  scalars : m.scalars = n.scalars
  operands : m.operands = n.operands.map (fun o => (o.1, f o.2))

theorem listed_map (f : Node → Node) (field : String) (ns : List Node) :
    listed field (ns.map f) = (listed field ns).map (fun o => (o.1, f o.2)) := by
  simp [listed, List.zipIdx_map, Function.comp_def]

theorem clauses_map (f : Node → Node) (cs : List (Node × List Node)) (k : Nat) :
    ((cs.map (fun c => (f c.1, c.2.map f))).zipIdx k).flatMap clause =
      ((cs.zipIdx k).flatMap clause).map (fun o => (o.1, f o.2)) := by
  induction cs generalizing k with
  | nil => rfl
  | cons c cs ih =>
    simp only [List.map_cons, List.zipIdx_cons, List.flatMap_cons, List.map_append, ih]
    simp [clause, List.zipIdx_map, Function.comp_def]

theorem mapOperands_rebuilt (f : Node → Node) (n : Node) : n.RebuiltBy f (n.mapOperands f) where
  kind := by
    cases n with
    | unary side _ _ => cases side <;> rfl
    | _ => rfl
  scalars := by
    cases n with
    | object ps | var ps | const ps => simp [mapOperands, scalars, Function.comp_def]
    | tryCatch b h fin => cases h <;> cases fin <;> rfl
    | _ => rfl
  operands := by
    cases n with
    | array ns | seq ns | function _ _ ns | block ns | defun _ _ ns | toplevel ns | splice ns =>
      exact listed_map f _ ns
    | object ps | var ps | const ps =>
      simp only [mapOperands, operands, ← listed_map, List.map_map, Function.comp_def]
    | call c ns | new c ns => simp only [mapOperands, operands, List.map_cons, listed_map]
    | switch d cs => simp only [mapOperands, operands, List.map_cons, clauses_map]
    | tryCatch b h fin =>
      cases h <;> cases fin <;> simp [mapOperands, operands, ← listed_map]
    | _ => rfl

/-- An operand that is there is a child. -/
theorem operand_absent_or_child {n : Node} {o : Site × Node} (ho : o ∈ n.operands) :
    o.2 = absent ∨ o.2 ∈ n.children := by
  cases hc : o.2.isAbsent with
  | true => exact .inl (isAbsent_eq_true_iff.mp hc)
  | false =>
    right
    rw [children_eq_present]
    exact List.mem_filter.mpr ⟨List.mem_map_of_mem ho, by rw [hc]; rfl⟩

theorem present_map {f : Node → Node} {ns : List Node}
    (hf : ∀ n ∈ ns, (f n).isAbsent = n.isAbsent) : present (ns.map f) = (present ns).map f := by
  rw [present, List.filter_map]
  congr 1
  apply List.filter_congr
  intro n hn
  rw [Function.comp_apply, hf n hn]

/-- Where an operand is there exactly if it was there before, the children are changed one by
    one. -/
theorem RebuiltBy.children {f : Node → Node} {n m : Node} (h : n.RebuiltBy f m)
    (hf : ∀ o ∈ n.operands, (f o.2).isAbsent = o.2.isAbsent) :
    m.children = n.children.map f := by
  have hops : m.operands.map (·.2) = (n.operands.map (·.2)).map f := by
    rw [h.operands, List.map_map, List.map_map]
    rfl
  rw [children_eq_present, children_eq_present, hops]
  apply present_map
  intro c hc
  obtain ⟨o, ho, rfl⟩ := List.mem_map.mp hc
  exact hf o ho

end Resumable.Node
