/-
  Resumable.Proofs.Document.Forms — the documents of a tree.

  The form of a tree is the tagged array that stands for it: the tag of a node, then its operands in
  order, with null for what is left out.  The form says nothing of lines, styles and quotes, so many
  documents have it (`Form.fits`).

  The two ways meet at the operands.  A node of the form of a kind is read by the operands of that
  kind (`tagged_yields`), and for each sort of operand there is a form that it is read from.  The
  induction is on the tree.

  Main statement: `parse_form`.
-/
import Mathlib.Data.List.Forall2
import Resumable.Proofs.Document.Reading

namespace Resumable

/-! ## §1. Forms. -/

/-- What a document says. -/
inductive Form where
  | text (s : String)
  | null
  /-- The word `true`. -/
  | flag
  | list (items : List Form)

namespace Form

mutual

/-- Whether a node of a document says the same as a form.  Texts are tagged as texts. -/
def fits : Form → Yaml.Node → Bool
  | text s, .scalar tag value _ _ => tag == Yaml.Tag.str && value == s
  | null, .scalar tag _ _ _ => tag == Yaml.Tag.null
  | flag, .scalar tag value _ _ => tag == Yaml.Tag.bool && value == "true"
  | list forms, .sequence _ items _ => fitsAll forms items
  | _, _ => false

/-- Whether the nodes of a list say the same as forms. -/
def fitsAll : List Form → List Yaml.Node → Bool
  | [], [] => true
  | form :: forms, item :: items => form.fits item && fitsAll forms items
  | _, _ => false

end

/-- The form of a text that is left out if it is empty. -/
def optional (s : String) : Form := if s = "" then null else text s

theorem optional_of_ne {s : String} (hs : s ≠ "") : optional s = text s := if_neg hs

/-- The form of the operator of an assignment: a flag for a plain one. -/
def operator (op : String) : Form := if op = "" then flag else text (op ++ "=")

/-- The form of a node of a kind. -/
def tagged (kind : Kind) (operands : List Form) : Form := list (text kind.tag :: operands)

end Form

namespace Node

open Form (tagged)

mutual

/-- The form of a tree. -/
def form : Node → Form
  | absent => .null
  | name x => tagged .name [.text x]
  | num s => tagged .num [.text s]
  | string s => tagged .string [.text s]
  | atom w => tagged .atom [.text w]
  | regexp pattern flags => tagged .regexp [.text pattern, .optional flags]
  | array es => tagged .array [.list (formAll es)]
  | object ps => tagged .object [.list (formFields ps)]
  | call c as => tagged .call [c.form, .list (formAll as)]
  | new c as => tagged .new [c.form, .list (formAll as)]
  | binary op l r => tagged .binary [.text op, l.form, r.form]
  | unary .before op e => tagged .unaryBefore [.text op, e.form]
  | unary .after op e => tagged .unaryAfter [.text op, e.form]
  | assign op t v => tagged .assign [.operator op, t.form, v.form]
  | dot b field => tagged .dot [b.form, .text field]
  | sub b i => tagged .sub [b.form, i.form]
  | conditional t y n => tagged .conditional [t.form, y.form, n.form]
  | seq es => tagged .seq (formAll es)
  | function f ps b => tagged .function [.optional f, .list (ps.map .text), .list (formAll b)]
  | defun f ps b => tagged .defun [.text f, .list (ps.map .text), .list (formAll b)]
  | stat e => tagged .stat [e.form]
  | var ds => tagged .var [.list (formFields ds)]
  | const ds => tagged .const [.list (formFields ds)]
  | block b => tagged .block [.list (formAll b)]
  | ifElse c y n => tagged .ifElse [c.form, y.form, n.form]
  | forLoop i c s b => tagged .forLoop [i.form, c.form, s.form, b.form]
  | forIn i o b => tagged .forIn [i.form, o.form, b.form]
  | whileLoop c b => tagged .whileLoop [c.form, b.form]
  | doLoop c b => tagged .doLoop [c.form, b.form]
  | breakTo l => tagged .breakTo [.optional l]
  | continueTo l => tagged .continueTo [.optional l]
  | debugger => tagged .debugger []
  | label l b => tagged .label [.text l, b.form]
  | ret v => tagged .ret [v.form]
  | throw v => tagged .throw [v.form]
  | tryCatch b h f => tagged .tryCatch [.list (formAll b), formHandler h, formFinalizer f]
  | switch d cs => tagged .switch [d.form, .list (formClauses cs)]
  | withObject o b => tagged .withObject [o.form, b.form]
  | toplevel b => tagged .toplevel [.list (formAll b)]
  | splice ns => tagged .splice [.list (formAll ns)]

/-- The forms of a list of trees. -/
def formAll : List Node → List Form
  | [] => []
  | n :: rest => n.form :: formAll rest

/-- The forms of properties, or of bindings that may lack a value. -/
def formFields : List (String × Node) → List Form
  | [] => []
  | (x, n) :: rest => .list [.text x, n.form] :: formFields rest

/-- The forms of the clauses of a switch statement. -/
def formClauses : List (Node × List Node) → List Form
  | [] => []
  | (test, body) :: rest => .list [test.form, .list (formAll body)] :: formClauses rest

/-- The form of a catch clause. -/
def formHandler : Option (String × List Node) → Form
  | none => .null
  | some (x, body) => .list [.text x, .list (formAll body)]

/-- The form of a `finally` list, which may be there and empty. -/
def formFinalizer : Option (List Node) → Form
  | none => .null
  | some body => .list (formAll body)

end

theorem formAll_eq (ns : List Node) : formAll ns = ns.map form := by
  induction ns with
  | nil => rfl
  | cons n ns ih => rw [formAll, ih, List.map_cons]

theorem formFields_eq (fields : List (String × Node)) :
    formFields fields = fields.map (fun d => .list [.text d.1, d.2.form]) := by
  induction fields with
  | nil => rfl
  | cons d fields ih => rw [formFields, ih, List.map_cons]

theorem formClauses_eq (cs : List (Node × List Node)) :
    formClauses cs = cs.map (fun c => .list [c.1.form, .list (formAll c.2)]) := by
  induction cs with
  | nil => rfl
  | cons c cs ih => rw [formClauses, ih, List.map_cons]

end Node

/-! ## §2. What is read from a form. -/

namespace Form

variable {y : Yaml.Node} {ys : List Yaml.Node} {f g h k : Form} {fs : List Form} {s : String}

theorem exists_of_text (hy : (text s).fits y = true) :
    ∃ style line, y = .scalar Yaml.Tag.str s style line := by
  cases y with
  | scalar tag value style line =>
    rw [fits, Bool.and_eq_true, beq_iff_eq, beq_iff_eq] at hy
    obtain ⟨rfl, rfl⟩ := hy
    exact ⟨style, line, rfl⟩
  | sequence | mapping | reference => simp [fits] at hy

theorem isNull_of_null (hy : null.fits y = true) : y.isNull = true := by
  cases y with
  | scalar tag value style line => exact hy
  | sequence | mapping | reference => simp [fits] at hy

theorem exists_of_list (hy : (list fs).fits y = true) :
    ∃ tag ys line, y = .sequence tag ys line ∧ fitsAll fs ys = true := by
  cases y with
  | sequence tag ys line => exact ⟨tag, ys, line, rfl, by simpa [fits] using hy⟩
  | scalar | mapping | reference => simp [fits] at hy

theorem fitsAll_nil (hys : fitsAll [] ys = true) : ys = [] := by
  cases ys with
  | nil => rfl
  | cons => simp [fitsAll] at hys

theorem fitsAll_cons (hys : fitsAll (f :: fs) ys = true) :
    ∃ a as, ys = a :: as ∧ f.fits a = true ∧ fitsAll fs as = true := by
  cases ys with
  | nil => simp [fitsAll] at hys
  | cons a as =>
    rw [fitsAll, Bool.and_eq_true] at hys
    exact ⟨a, as, rfl, hys⟩

theorem fitsAll_one (hys : fitsAll [f] ys = true) : ∃ a, ys = [a] ∧ f.fits a = true := by
  obtain ⟨a, as, rfl, ha, has⟩ := fitsAll_cons hys
  rw [fitsAll_nil has]
  exact ⟨a, rfl, ha⟩

theorem fitsAll_two (hys : fitsAll [f, g] ys = true) :
    ∃ a b, ys = [a, b] ∧ f.fits a = true ∧ g.fits b = true := by
  obtain ⟨a, as, rfl, ha, has⟩ := fitsAll_cons hys
  obtain ⟨b, rfl, hb⟩ := fitsAll_one has
  exact ⟨a, b, rfl, ha, hb⟩

theorem fitsAll_three (hys : fitsAll [f, g, h] ys = true) :
    ∃ a b c, ys = [a, b, c] ∧ f.fits a = true ∧ g.fits b = true ∧ h.fits c = true := by
  obtain ⟨a, as, rfl, ha, has⟩ := fitsAll_cons hys
  obtain ⟨b, c, rfl, hb, hc⟩ := fitsAll_two has
  exact ⟨a, b, c, rfl, ha, hb, hc⟩

theorem fitsAll_four (hys : fitsAll [f, g, h, k] ys = true) :
    ∃ a b c d, ys = [a, b, c, d] ∧
      f.fits a = true ∧ g.fits b = true ∧ h.fits c = true ∧ k.fits d = true := by
  obtain ⟨a, as, rfl, ha, has⟩ := fitsAll_cons hys
  obtain ⟨b, c, d, rfl, hb, hc, hd⟩ := fitsAll_three has
  exact ⟨a, b, c, d, rfl, ha, hb, hc, hd⟩

theorem length_of_fitsAll (hys : fitsAll fs ys = true) : ys.length = fs.length := by
  induction fs generalizing ys with
  | nil =>
    rw [fitsAll_nil hys]
    rfl
  | cons f fs ih =>
    obtain ⟨a, as, rfl, -, has⟩ := fitsAll_cons hys
    rw [List.length_cons, List.length_cons, ih has]

/-- Each node of a list says the same as the form of a member that it stands for. -/
theorem forall₂_of_fitsAll {α : Type} {P : α → Prop} {form : α → Form} {as : List α}
    (h : ∀ a ∈ as, P a) (hys : fitsAll (as.map form) ys = true) :
    List.Forall₂ (fun y a => (form a).fits y = true ∧ P a) ys as := by
  induction as generalizing ys with
  | nil =>
    rw [fitsAll_nil hys]
    exact .nil
  | cons a as ih =>
    obtain ⟨ha, has⟩ := List.forall_mem_cons.mp h
    obtain ⟨y, rest, rfl, hy, hrest⟩ := fitsAll_cons hys
    exact .cons ⟨hy, ha⟩ (ih has hrest)

end Form

namespace Tree

/-- A reading that gives a value. -/
def Yields {α : Type} (x : Decode α) (a : α) : Prop := x = some (.ok a)

namespace Yields

variable {α β : Type} {a : α} {b : β}

theorem pure : Yields (Pure.pure a) a := rfl

theorem bind {x : Decode α} {f : α → Decode β} (h : Yields x a) (hf : Yields (f a) b) :
    Yields (x >>= f) b := by
  rw [Yields] at h
  rw [h]
  exact hf

theorem mapM {f : α → Decode β} {as : List α} {bs : List β}
    (h : List.Forall₂ (fun a b => Yields (f a) b) as bs) : Yields (as.mapM f) bs := by
  induction h with
  | nil => exact .pure
  | cons ha _ ih =>
    rw [List.mapM_cons]
    exact .bind ha (.bind ih .pure)

/-- Readings that do not depend on where their argument stands. -/
theorem mapM_zipIdx {f : α × Nat → Decode β} {as : List α} {bs : List β}
    (h : List.Forall₂ (fun a b => ∀ i, Yields (f (a, i)) b) as bs) :
    Yields (as.zipIdx.mapM f) bs := by
  suffices ∀ k, List.Forall₂ (fun p b => Yields (f p) b) (as.zipIdx k) bs from .mapM (this 0)
  induction h with
  | nil => exact fun _ => .nil
  | cons ha _ ih => exact fun k => .cons (ha k) (ih (k + 1))

end Yields

/-! ## §3. Operands. -/

section

variable {doc : Yaml.Document} {path : Path} {what s : String} {y : Yaml.Node}

theorem scalar_yields (hy : (Form.text s).fits y = true) : Yields (scalar doc path what y) s := by
  obtain ⟨style, line, rfl⟩ := Form.exists_of_text hy
  exact .pure

theorem optionalScalar_yields (hy : (Form.optional s).fits y = true) :
    Yields (optionalScalar doc path what (some y)) s := by
  unfold Form.optional at hy
  split at hy
  · next hs =>
    rw [optionalScalar, if_pos (Form.isNull_of_null hy), hs]
    exact .pure
  · obtain ⟨style, line, rfl⟩ := Form.exists_of_text hy
    exact .pure

/-- The equals sign of an operator is taken off again. -/
theorem operator_yields (hy : (Form.operator s).fits y = true) :
    Yields (assignOperator doc path y) s := by
  unfold Form.operator at hy
  split at hy
  · next hs =>
    cases y with
    | scalar tag value style line =>
      rw [Form.fits, Bool.and_eq_true, beq_iff_eq, beq_iff_eq] at hy
      obtain ⟨rfl, rfl⟩ := hy
      rw [hs]
      exact .pure
    | sequence | mapping | reference => simp [Form.fits] at hy
  · obtain ⟨style, line, rfl⟩ := Form.exists_of_text hy
    have hends : (s ++ "=").endsWith "=" = true := by
      rw [← String.endsWith_toSlice, String.Slice.endsWith_string_iff]
      simp
    have hop : ((s ++ "=").dropEnd 1).toString = s := by
      rw [← String.toList_inj]
      show ((s ++ "=").dropEnd 1).copy.toList = _
      rw [String.toList_copy_dropEnd]
      simp
    show Yields (pure (if (s ++ "=").endsWith "=" then _ else _)) s
    rw [if_pos hends, hop]
    exact .pure

theorem list_yields {fs : List Form} (hy : (Form.list fs).fits y = true) :
    ∃ ys, Form.fitsAll fs ys = true ∧ ∀ path what, Yields (list doc path what (some y)) ys := by
  obtain ⟨tag, ys, line, rfl, hys⟩ := Form.exists_of_list hy
  exact ⟨ys, hys, fun _ _ => .pure⟩

theorem isNull_of_list {fs : List Form} (hy : (Form.list fs).fits y = true) : y.isNull = false := by
  obtain ⟨tag, ys, line, rfl, -⟩ := Form.exists_of_list hy
  rfl

theorem names_yields {xs : List String} (hy : (Form.list (xs.map .text)).fits y = true) :
    Yields (names doc path what y) xs := by
  obtain ⟨ys, hys, hlist⟩ := list_yields hy
  refine .bind (hlist _ _) (.mapM ?_)
  exact (Form.forall₂_of_fitsAll (P := fun _ => True) (fun _ _ => trivial) hys).imp
    fun _ _ h => scalar_yields h.1

end

/-- What stands at a position, and is read from its form if it is there. -/
structure Readable (doc : Yaml.Document) (p : Position) (n : Node) : Prop where
  fills : Node.Fills p n
  read : n.Complete → ∀ y path, n.form.fits y = true → Yields (doc.decode path y) n

section

variable {doc : Yaml.Document} {path : Path} {what : String} {y : Yaml.Node} {n : Node}
  {p : Position} {ns : List Node} {fields : List (String × Node)}

theorem Readable.yields (h : Readable doc p n) (hp : p.mayBeEmpty = false)
    (hy : n.form.fits y = true) : Yields (doc.decode path y) n :=
  h.read ((Node.fills_iff hp).mp h.fills) y path hy

theorem isNull_of_form (hn : n.isAbsent = false) (hy : n.form.fits y = true) :
    y.isNull = false := by
  have hform : ∃ kind operands, n.form = .tagged kind operands := by
    cases n with
    | absent => cases hn
    | unary side op e => cases side <;> exact ⟨_, _, by rw [Node.form]⟩
    | _ => exact ⟨_, _, by rw [Node.form]⟩
  obtain ⟨kind, operands, hform⟩ := hform
  rw [hform] at hy
  exact isNull_of_list hy

theorem optionalNode_yields (h : Readable doc p n) (hy : n.form.fits y = true) :
    Yields (optionalNode doc.decode path (some y)) n := by
  rw [optionalNode]
  rcases h.fills with hn | ⟨rfl, -⟩
  · rw [isNull_of_form hn.present hy, if_neg Bool.false_ne_true]
    exact h.read hn y path hy
  · rw [Node.form] at hy
    rw [if_pos (Form.isNull_of_null hy)]
    exact .pure

theorem nodes_yields (hp : p.mayBeEmpty = false) (h : ∀ n ∈ ns, Readable doc p n)
    (hy : (Form.list (Node.formAll ns)).fits y = true) :
    Yields (nodes doc doc.decode path what (some y)) ns := by
  obtain ⟨ys, hys, hlist⟩ := list_yields hy
  rw [Node.formAll_eq] at hys
  refine .bind (hlist _ _) (.mapM_zipIdx ?_)
  exact (Form.forall₂_of_fitsAll h hys).imp fun _ _ h _ => h.2.yields hp h.1

theorem bindings_yields (h : ∀ d ∈ fields, Readable doc p d.2)
    (hy : (Form.list (Node.formFields fields)).fits y = true) :
    Yields (bindings doc doc.decode path y) fields := by
  obtain ⟨ys, hys, hlist⟩ := list_yields hy
  rw [Node.formFields_eq] at hys
  refine .bind (hlist _ _) (.mapM ((Form.forall₂_of_fitsAll h hys).imp fun y d ⟨hy, hd⟩ => ?_))
  obtain ⟨parts, hparts, hlist⟩ := list_yields hy
  obtain ⟨x, v, rfl, hx, hv⟩ := Form.fitsAll_two hparts
  exact .bind (hlist _ _) (.bind (scalar_yields hx) (.bind (optionalNode_yields hd hv) .pure))

theorem properties_yields (hp : p.mayBeEmpty = false) (h : ∀ d ∈ fields, Readable doc p d.2)
    (hy : (Form.list (Node.formFields fields)).fits y = true) :
    Yields (properties doc doc.decode path y) fields := by
  obtain ⟨ys, hys, hlist⟩ := list_yields hy
  rw [Node.formFields_eq] at hys
  refine .bind (hlist _ _) (.mapM ((Form.forall₂_of_fitsAll h hys).imp fun y d ⟨hy, hd⟩ => ?_))
  obtain ⟨parts, hparts, hlist⟩ := list_yields hy
  obtain ⟨k, v, rfl, hk, hv⟩ := Form.fitsAll_two hparts
  exact .bind (hlist _ _) (.bind (scalar_yields hk) (.bind (hd.yields hp hv) .pure))

theorem clauses_yields {cs : List (Node × List Node)}
    (h : ∀ c ∈ cs, Readable doc .optional c.1 ∧ ∀ n ∈ c.2, Readable doc .statement n)
    (hy : (Form.list (Node.formClauses cs)).fits y = true) :
    Yields (clauses doc doc.decode path y) cs := by
  obtain ⟨ys, hys, hlist⟩ := list_yields hy
  rw [Node.formClauses_eq] at hys
  refine .bind (hlist _ _)
    (.mapM_zipIdx ((Form.forall₂_of_fitsAll h hys).imp fun y c ⟨hy, hc⟩ i => ?_))
  obtain ⟨parts, hparts, hlist⟩ := list_yields hy
  obtain ⟨t, b, rfl, ht, hb⟩ := Form.fitsAll_two hparts
  exact .bind (hlist _ _) (.bind (optionalNode_yields hc.1 ht)
    (.bind (nodes_yields rfl hc.2 hb) .pure))

theorem handler_yields {handler : Option (String × List Node)}
    (h : ∀ c ∈ handler, ∀ n ∈ c.2, Readable doc .statement n)
    (hy : (Node.formHandler handler).fits y = true) :
    Yields (Tree.handler doc doc.decode path (some y)) handler := by
  rw [Tree.handler]
  cases handler with
  | none =>
    rw [Node.formHandler] at hy
    rw [if_pos (Form.isNull_of_null hy)]
    exact .pure
  | some c =>
    rw [Node.formHandler] at hy
    rw [isNull_of_list hy, if_neg Bool.false_ne_true]
    obtain ⟨parts, hparts, hlist⟩ := list_yields hy
    obtain ⟨x, b, rfl, hx, hb⟩ := Form.fitsAll_two hparts
    exact .bind (hlist _ _) (.bind (scalar_yields hx) (.bind (nodes_yields rfl (h c rfl) hb) .pure))

theorem finalizer_yields {finalizer : Option (List Node)}
    (h : ∀ f ∈ finalizer, ∀ n ∈ f, Readable doc .statement n)
    (hy : (Node.formFinalizer finalizer).fits y = true) :
    Yields (Tree.finalizer doc doc.decode path (some y)) finalizer := by
  rw [Tree.finalizer]
  cases finalizer with
  | none =>
    rw [Node.formFinalizer] at hy
    rw [if_pos (Form.isNull_of_null hy)]
    exact .pure
  | some body =>
    rw [Node.formFinalizer] at hy
    rw [isNull_of_list hy, if_neg Bool.false_ne_true]
    exact .bind (nodes_yields rfl (h body rfl) hy) .pure

/-! ## §4. Nodes. -/

/-- A node is read by the operands of its kind. -/
theorem tagged_yields {kind : Kind} {operands : List Form}
    (haccepts : kind.accepts operands.length = true)
    (hy : (Form.tagged kind operands).fits y = true)
    (h : ∀ ys, Form.fitsAll operands ys = true → ∀ path,
      Yields (Tree.operands doc doc.decode path kind ys) n) :
    Yields (doc.decode path y) n := by
  obtain ⟨tag, items, line, rfl, hitems⟩ := Form.exists_of_list hy
  obtain ⟨t, ys, rfl, ht, hys⟩ := Form.fitsAll_cons hitems
  rw [Yaml.Document.decode.eq_1]
  show Yields (scalar doc path "tag" t >>= _) n
  refine .bind (scalar_yields ht) ?_
  rw [Kind.ofTag?_tag]
  dsimp only
  rw [Form.length_of_fitsAll hys, if_pos haccepts]
  exact h ys hys _

section

variable {kind : Kind} {f g h k : Form}

theorem tagged_one (haccepts : kind.accepts 1 = true) (hy : (Form.tagged kind [f]).fits y = true)
    (hread : ∀ a path, f.fits a = true → Yields (operands doc doc.decode path kind [a]) n) :
    Yields (doc.decode path y) n := by
  refine tagged_yields haccepts hy fun ys hys path => ?_
  obtain ⟨a, rfl, ha⟩ := Form.fitsAll_one hys
  exact hread a path ha

theorem tagged_two (haccepts : kind.accepts 2 = true) (hy : (Form.tagged kind [f, g]).fits y = true)
    (hread : ∀ a b path, f.fits a = true → g.fits b = true →
      Yields (operands doc doc.decode path kind [a, b]) n) :
    Yields (doc.decode path y) n := by
  refine tagged_yields haccepts hy fun ys hys path => ?_
  obtain ⟨a, b, rfl, ha, hb⟩ := Form.fitsAll_two hys
  exact hread a b path ha hb

theorem tagged_three (haccepts : kind.accepts 3 = true)
    (hy : (Form.tagged kind [f, g, h]).fits y = true)
    (hread : ∀ a b c path, f.fits a = true → g.fits b = true → h.fits c = true →
      Yields (operands doc doc.decode path kind [a, b, c]) n) :
    Yields (doc.decode path y) n := by
  refine tagged_yields haccepts hy fun ys hys path => ?_
  obtain ⟨a, b, c, rfl, ha, hb, hc⟩ := Form.fitsAll_three hys
  exact hread a b c path ha hb hc

theorem tagged_four (haccepts : kind.accepts 4 = true)
    (hy : (Form.tagged kind [f, g, h, k]).fits y = true)
    (hread : ∀ a b c d path, f.fits a = true → g.fits b = true → h.fits c = true →
      k.fits d = true → Yields (operands doc doc.decode path kind [a, b, c, d]) n) :
    Yields (doc.decode path y) n := by
  refine tagged_yields haccepts hy fun ys hys path => ?_
  obtain ⟨a, b, c, d, rfl, ha, hb, hc, hd⟩ := Form.fitsAll_four hys
  exact hread a b c d path ha hb hc hd

end

/-- A node is read from its form, if what stands at its positions is. -/
theorem form_yields (hn : n.isAbsent = false) (hs : n.substantial = true)
    (h : ∀ x ∈ n.positions, Readable doc x.1 x.2) (hy : n.form.fits y = true) :
    Yields (doc.decode path y) n := by
  cases n with
  | absent => cases hn
  | name x | num x | string x | atom x =>
    rw [Node.form] at hy
    exact tagged_one rfl hy fun _ _ ha => .bind (scalar_yields ha) .pure
  | regexp pattern flags =>
    rw [Node.form] at hy
    exact tagged_two rfl hy fun _ _ _ ha hb =>
      .bind (scalar_yields ha) (.bind (optionalScalar_yields hb) .pure)
  | array ns | toplevel ns | splice ns | block ns =>
    have hns := (Node.forall_list rfl).mp h
    rw [Node.form] at hy
    exact tagged_one rfl hy fun _ _ ha => .bind (nodes_yields rfl hns ha) .pure
  | object ps =>
    have hps := (Node.forall_fields rfl).mp h
    rw [Node.form] at hy
    exact tagged_one rfl hy fun _ _ ha => .bind (properties_yields rfl hps ha) .pure
  | var ds | const ds =>
    have hds := (Node.forall_fields rfl).mp h
    rw [Node.form] at hy
    exact tagged_one rfl hy fun _ _ ha => .bind (bindings_yields hds ha) .pure
  | call c as | new c as =>
    obtain ⟨hc, has⟩ := (Node.forall_applied rfl).mp h
    rw [Node.form] at hy
    exact tagged_two rfl hy fun _ _ _ ha hb =>
      .bind (hc.yields rfl ha) (.bind (nodes_yields rfl has hb) .pure)
  | binary op l r =>
    obtain ⟨hl, hr⟩ := (Node.forall_two rfl).mp h
    rw [Node.form] at hy
    exact tagged_three rfl hy fun _ _ _ _ ha hb hc =>
      .bind (scalar_yields ha) (.bind (hl.yields rfl hb) (.bind (hr.yields rfl hc) .pure))
  | unary side op e =>
    have he := (Node.forall_one rfl).mp h
    cases side <;> rw [Node.form] at hy <;> exact tagged_two rfl hy fun _ _ _ ha hb =>
      .bind (scalar_yields ha) (.bind (he.yields rfl hb) .pure)
  | assign op t v =>
    obtain ⟨ht, hv⟩ := (Node.forall_two rfl).mp h
    rw [Node.form] at hy
    exact tagged_three rfl hy fun _ _ _ _ ha hb hc =>
      .bind (operator_yields ha) (.bind (ht.yields rfl hb) (.bind (hv.yields rfl hc) .pure))
  | dot b field =>
    have hbase := (Node.forall_one rfl).mp h
    rw [Node.form] at hy
    exact tagged_two rfl hy fun _ _ _ ha hb =>
      .bind (hbase.yields rfl ha) (.bind (scalar_yields hb) .pure)
  | sub l r | whileLoop l r | withObject l r =>
    obtain ⟨hl, hr⟩ := (Node.forall_two rfl).mp h
    rw [Node.form] at hy
    exact tagged_two rfl hy fun _ _ _ ha hb =>
      .bind (hl.yields rfl ha) (.bind (hr.yields rfl hb) .pure)
  | doLoop c b =>
    -- the body is the first position, and the second operand
    obtain ⟨hbody, hcond⟩ := (Node.forall_two rfl).mp h
    rw [Node.form] at hy
    exact tagged_two rfl hy fun _ _ _ ha hb =>
      .bind (hcond.yields rfl ha) (.bind (hbody.yields rfl hb) .pure)
  | conditional t y n | forIn t y n =>
    obtain ⟨ht, hyes, hno⟩ := (Node.forall_three rfl).mp h
    rw [Node.form] at hy
    exact tagged_three rfl hy fun _ _ _ _ ha hb hc =>
      .bind (ht.yields rfl ha) (.bind (hyes.yields rfl hb) (.bind (hno.yields rfl hc) .pure))
  | seq es =>
    have hes := (Node.forall_list rfl).mp h
    have haccepts : Kind.accepts .seq (Node.formAll es).length = true := by
      cases es with
      | nil => cases hs
      | cons e es => simp [Node.formAll, Kind.accepts, Kind.arity]
    rw [Node.form] at hy
    refine tagged_yields haccepts hy fun ys hys path => ?_
    rw [Node.formAll_eq] at hys
    refine .bind (.mapM ?_) .pure
    exact (Form.forall₂_of_fitsAll hes hys).imp fun _ _ h => h.2.yields rfl h.1
  | function f ps b =>
    have hb := (Node.forall_list rfl).mp h
    rw [Node.form] at hy
    exact tagged_three rfl hy fun _ _ _ _ hname hps hbody =>
      .bind (optionalScalar_yields hname) (.bind (names_yields hps)
        (.bind (nodes_yields rfl hb hbody) .pure))
  | defun f ps b =>
    have hb := (Node.forall_list rfl).mp h
    have hf : f ≠ "" := bne_iff_ne.mp hs
    rw [Node.form, ← Form.optional_of_ne hf] at hy
    refine tagged_three rfl hy fun _ _ _ _ hname hps hbody => ?_
    refine .bind (optionalScalar_yields hname) (.bind (names_yields hps)
      (.bind (nodes_yields rfl hb hbody) ?_))
    rw [if_neg (by simpa using hf)]
    exact .pure
  | stat e | throw e =>
    have he := (Node.forall_one rfl).mp h
    rw [Node.form] at hy
    exact tagged_one rfl hy fun _ _ ha => .bind (he.yields rfl ha) .pure
  | ret v =>
    have hv := (Node.forall_one rfl).mp h
    rw [Node.form] at hy
    exact tagged_one rfl hy fun _ _ ha => .bind (optionalNode_yields hv ha) .pure
  | ifElse c y e =>
    obtain ⟨hcond, hyes, hno⟩ := (Node.forall_three rfl).mp h
    rw [Node.form] at hy
    exact tagged_three rfl hy fun _ _ _ _ ha hb hc =>
      .bind (hcond.yields rfl ha) (.bind (hyes.yields rfl hb)
        (.bind (optionalNode_yields hno hc) .pure))
  | forLoop i c s b =>
    obtain ⟨hinit, hcond, hstep, hbody⟩ := (Node.forall_four rfl).mp h
    have hb : b.Complete := (Node.fills_iff rfl).mp hbody.fills
    rw [Node.form] at hy
    refine tagged_four rfl hy fun _ _ _ _ _ hw hx hy hz => ?_
    refine .bind (optionalNode_yields hinit hw) (.bind (optionalNode_yields hcond hx)
      (.bind (optionalNode_yields hstep hy) (.bind (optionalNode_yields hbody hz) ?_)))
    rw [hb.present, if_neg Bool.false_ne_true]
    exact .pure
  | breakTo l | continueTo l =>
    rw [Node.form] at hy
    exact tagged_one rfl hy fun _ _ ha => .bind (optionalScalar_yields ha) .pure
  | debugger =>
    rw [Node.form] at hy
    refine tagged_yields rfl hy fun ys hys path => ?_
    rw [Form.fitsAll_nil hys]
    exact .pure
  | label l b =>
    have hbody := (Node.forall_one rfl).mp h
    rw [Node.form] at hy
    exact tagged_two rfl hy fun _ _ _ ha hb =>
      .bind (scalar_yields ha) (.bind (hbody.yields rfl hb) .pure)
  | tryCatch b hd f =>
    obtain ⟨hbody, hhandler, hfinalizer⟩ := Node.forall_tryCatch.mp h
    rw [Node.form] at hy
    exact tagged_three rfl hy fun _ _ _ _ ha hb hc =>
      .bind (nodes_yields rfl hbody ha) (.bind (handler_yields hhandler hb)
        (.bind (finalizer_yields hfinalizer hc) .pure))
  | switch d cs =>
    obtain ⟨hd, hcs⟩ := Node.forall_switch.mp h
    rw [Node.form] at hy
    exact tagged_two rfl hy fun _ _ _ ha hb =>
      .bind (hd.yields rfl ha) (.bind (clauses_yields hcs hb) .pure)

end

/-- A complete tree is read from its form. -/
theorem complete_yields (doc : Yaml.Document) (n : Node) (h : n.Complete) (y : Yaml.Node)
    (path : Path) (hy : n.form.fits y = true) : Yields (doc.decode path y) n := by
  obtain ⟨hn, hs, hpositions⟩ := Node.complete_iff.mp h
  refine form_yields hn hs (fun x hx => ⟨hpositions x hx, fun hc y path hy => ?_⟩) hy
  have := Node.sizeOf_lt_of_mem_positions hx hc.present
  exact complete_yields doc x.2 hc y path hy
termination_by sizeOf n

end Tree

namespace Node

/-- A complete tree is what is read from any document that has its form. -/
theorem parse_form (n : Node) (bytes : Bytes) (doc : Yaml.Document) (hn : n.Complete)
    (hdoc : Yaml.Document.parse bytes = .ok (some doc)) (hroot : n.form.fits doc.root = true) :
    parse bytes = .ok n := by
  have hdecode : doc.decode [] doc.root = some (.ok n) :=
    Tree.complete_yields doc n hn _ [] hroot
  simp only [parse, hdoc, ofDocument, hdecode]

/-- A declaration without parameters, of a `try` without a handler and with an empty `finally`. -/
theorem parse_form_of_declaration :
    let n : Node := .defun "f" [] [.tryCatch [] none (some [])]
    let bytes := Text.bytesOf "[defun, f, [], [[try, [], null, []]]]"
    ∃ doc, n.Complete ∧ Yaml.Document.parse bytes = .ok (some doc) ∧
      n.form.fits doc.root = true ∧ parse bytes = .ok n := by
  intro n bytes
  have hparses : Yaml.Document.parses bytes (fun doc => n.form.fits doc.root) = true := by
    decide +kernel
  obtain ⟨doc, hdoc, hroot⟩ := Yaml.Document.exists_of_parses hparses
  have hn : n.Complete := by decide +kernel
  exact ⟨doc, hn, hdoc, hroot, parse_form n bytes doc hn hdoc hroot⟩

end Node

end Resumable
