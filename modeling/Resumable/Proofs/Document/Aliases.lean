/-
  Resumable.Proofs.Document.Aliases — readings of a document and of its copy.

  A reading follows an alias wherever it needs what the alias refers to, so it comes to the same on
  a document and on a copy of it.  There are two exceptions.  Whether an operand is left out, and
  whether an operator is a flag, is asked of the node that is written there; an alias of a null or
  of a flag is neither.  `Document.Overlooks` says where that is asked, for each kind of node.

  The two readings go side by side: `Follows` relates the nodes that they stand at, and `Matches`
  what they come to.  There is one lemma for each sort of operand, one for a node
  (`decodeStep_matches`), and the induction is on the size of the copy.

  Main statement: `parse_follows_aliases`.
-/
import Resumable.Proofs.Document.Circles
import Resumable.Proofs.Document.Copies
import Resumable.Proofs.Support

namespace Resumable

/-- The category of a failure, if it has one. -/
def Failure.category? (e : Failure) : Option Category := e.report?.map (·.category)

/-! ## §1. Operands that are looked at where they are written. -/

namespace Yaml

/-- Whether a node is a truth value written out, not behind an alias. -/
def Node.isFlag : Node → Bool
  | .scalar tag _ _ _ => tag == Tag.bool
  | _ => false

namespace Document

variable (doc : Document)

/-- The items of a list, behind an alias as well. -/
def items (n : Node) : List Node :=
  match doc.follow n with
  | .sequence _ items _ => items
  | _ => []

/-- The operands of a node that a null leaves out. -/
def optionals : Kind → List Node → List Node
  | .regexp, ops | .tryCatch, ops => ops.drop 1
  | .function, ops | .defun, ops => ops.take 1
  | .ifElse, ops => ops.drop 2
  | .forLoop, ops => ops.take 3
  | .breakTo, ops | .continueTo, ops | .ret, ops => ops
  | .var, ops | .const, ops => (ops.flatMap doc.items).flatMap fun d => (doc.items d).drop 1
  | .switch, ops => ((ops.drop 1).flatMap doc.items).flatMap fun c => (doc.items c).take 1
  | _, _ => []

/-- The operands of a node that may be flags. -/
def flags : Kind → List Node → List Node
  | .assign, ops => ops.take 1
  | _, _ => []

/-- Whether an operand of a node is an alias of a null that would leave the operand out, or of a
    truth value that would be a flag. -/
def overlooks (kind : Kind) (ops : List Node) : Bool :=
  (doc.optionals kind ops).any (fun o => o.isAlias && (doc.follow o).isNull) ||
    (flags kind ops).any (fun o => o.isAlias && (doc.follow o).isFlag)

/-- Whether the node is a list with the tag of a kind and with such an operand. -/
def overlooksAt (n : Node) : Bool :=
  match doc.items n with
  | [] => false
  | head :: ops =>
      match doc.follow head with
      | .scalar _ tag _ _ => (Kind.ofTag? tag).any fun kind => doc.overlooks kind ops
      | _ => false

/-- Somewhere an alias stands for a null or a flag that is only seen where it is written. -/
def Overlooks : Prop := ∃ n, Relation.ReflTransGen doc.Inside n doc.root ∧ doc.overlooksAt n = true

variable {doc} in
theorem not_overlooks_of_nodes (h : doc.nodes.all (fun n => !doc.overlooksAt n) = true) :
    ¬ doc.Overlooks := by
  rintro ⟨n, hn, hoverlooks⟩
  have hmem : n ∈ doc.nodes := by
    rcases Relation.reflTransGen_iff_eq_or_transGen.mp hn with heq | hn
    · exact heq ▸ mem_nodes_root
    · exact mem_nodes_within hn mem_nodes_root
  have hclear := List.all_eq_true.mp h n hmem
  rw [hoverlooks] at hclear
  cases hclear

end Document

end Yaml

namespace Tree

open Yaml (Document)

/-! ## §2. Two readings side by side. -/

/-- Two readings have related values, fail with failures of one category, or go on for ever. -/
inductive Matches {α β : Type} (Q : α → β → Prop) : Decode α → Decode β → Prop
  | ok {a : α} {b : β} (h : Q a b) : Matches Q (some (.ok a)) (some (.ok b))
  | failed {e e' : Failure} (h : e.category? = e'.category?) :
      Matches Q (some (.error e)) (some (.error e'))
  | endless : Matches Q none none

namespace Matches

variable {α β γ δ : Type} {P : α → β → Prop} {Q : γ → δ → Prop}

theorem pure {c : γ} {d : δ} (h : Q c d) : Matches Q (Pure.pure c) (Pure.pure d) := .ok h

theorem of_eq {x y : Decode γ} (h : x = y) : Matches Eq x y := by
  subst h
  cases x with
  | none => exact .endless
  | some r =>
    cases r with
    | error e => exact .failed rfl
    | ok c => exact .ok rfl

theorem bind {x : Decode α} {y : Decode β} {f : α → Decode γ} {g : β → Decode δ}
    (h : Matches P x y) (hfg : ∀ a b, P a b → Matches Q (f a) (g b)) :
    Matches Q (x >>= f) (y >>= g) := by
  cases h with
  | ok h => exact hfg _ _ h
  | failed h => exact .failed h
  | endless => exact .endless

theorem mono {P' : α → β → Prop} {x : Decode α} {y : Decode β} (h : Matches P x y)
    (hP : ∀ a b, P a b → P' a b) : Matches P' x y := by
  cases h with
  | ok h => exact .ok (hP _ _ h)
  | failed h => exact .failed h
  | endless => exact .endless

/-- Goes on with one and the same value. -/
theorem same {x y : Decode α} {f : α → Decode γ} {g : α → Decode δ} (h : Matches Eq x y)
    (hfg : ∀ a, Matches Q (f a) (g a)) : Matches Q (x >>= f) (y >>= g) :=
  h.bind fun a _ hab => hab ▸ hfg a

theorem mapM {f : α → Decode γ} {g : β → Decode γ} {as : List α} {bs : List β}
    (h : List.Forall₂ P as bs) (hfg : ∀ a b, P a b → Matches Eq (f a) (g b)) :
    Matches Eq (as.mapM f) (bs.mapM g) := by
  induction h with
  | nil => exact .of_eq rfl
  | cons hab _ ih =>
    rw [List.mapM_cons, List.mapM_cons]
    exact .same (hfg _ _ hab) fun _ => .same ih fun _ => .pure rfl

theorem ite {c : Prop} [Decidable c] {x x' : Decode γ} {y y' : Decode δ} (hthen : Matches Q x y)
    (helse : Matches Q x' y') : Matches Q (if c then x else x') (if c then y else y') := by
  split
  · exact hthen
  · exact helse

theorem malformed {path : Path} {node node' detail detail' : String} :
    Matches Q (Tree.malformed path node detail) (Tree.malformed path node' detail') := .failed rfl

end Matches

/-! ## §3. Operands. -/

/-- What a reading sees at a node, and at the related node of a copy. -/
inductive Sees (R : Yaml.Node → Yaml.Node → Prop) : Yaml.Node → Yaml.Node → Prop
  | scalar {tag : Yaml.Tag} {value : String} {style style' : Yaml.ScalarStyle} {line line' : Nat} :
      Sees R (.scalar tag value style line) (.scalar tag value style' line')
  | sequence {tag : Yaml.Tag} {items items' : List Yaml.Node} {line line' : Nat}
      (h : List.Forall₂ R items items') :
      Sees R (.sequence tag items line) (.sequence tag items' line')
  | mapping {tag : Yaml.Tag} {entries entries' : List (Yaml.Node × Yaml.Node)} {line line' : Nat} :
      Sees R (.mapping tag entries line) (.mapping tag entries' line')

/-- The nodes of a document are related to nodes of its copy as the readings need it. -/
structure Follows (doc doc' : Document) (child child' : NodeReader)
    (R : Yaml.Node → Yaml.Node → Prop) : Prop where
  sees : ∀ {o o'}, R o o' → Sees R (doc.follow o) o'
  child : ∀ {o o'} (path : Path), R o o' → Matches Eq (child path o) (child' path o')
  /-- A null is not a node. -/
  null : ∀ {o'} (path : Path), o'.isNull = true →
    ∃ e, child' path o' = some (.error e) ∧ e.category? = some .invalidNode

/-- An operand is left out where it is written, or not at all. -/
def Written (doc : Document) (o : Yaml.Node) : Prop := (doc.follow o).isNull = o.isNull

variable {doc doc' : Document} {child child' : NodeReader} {R : Yaml.Node → Yaml.Node → Prop}
  {path : Path} {what : String} {o o' : Yaml.Node} {os os' : List Yaml.Node}

theorem null_of_not_written (h : ¬ Written doc o) :
    o.isNull = false ∧ (doc.follow o).isNull = true := by
  cases o with
  | scalar | sequence | mapping => exact absurd rfl h
  | reference => exact ⟨rfl, Bool.eq_true_of_not_eq_false h⟩

theorem written_of_any (h : ¬ (o.isAlias && (doc.follow o).isNull) = true) : Written doc o := by
  cases o with
  | scalar | sequence | mapping => rfl
  | reference => exact Bool.eq_false_of_not_eq_true h

theorem Sees.mono {S : Yaml.Node → Yaml.Node → Prop} (h : Sees R o o')
    (hS : ∀ a b, R a b → S a b) : Sees S o o' := by
  cases h with
  | scalar => exact .scalar
  | sequence hitems => exact .sequence (hitems.imp hS)
  | mapping => exact .mapping

theorem Sees.follow (h : Sees R o o') : doc'.follow o' = o' := by
  cases h <;> rfl

section

variable (hR : Follows doc doc' child child' R)
include hR

theorem Follows.isNull (h : R o o') : o'.isNull = (doc.follow o).isNull := by
  have hsees := hR.sees h
  generalize doc.follow o = n at hsees
  cases hsees <;> rfl

theorem scalar_eq (h : R o o') : scalar doc path what o = scalar doc' path what o' := by
  have hsees := hR.sees h
  rw [scalar, scalar, hsees.follow]
  generalize doc.follow o = n at hsees
  cases hsees <;> rfl

theorem list_matches (h : R o o') :
    Matches (fun items items' => items = doc.items o ∧ List.Forall₂ R items items')
      (list doc path what (some o)) (list doc' path what (some o')) := by
  have hsees := hR.sees h
  rw [list, list, hsees.follow, Document.items]
  generalize doc.follow o = n at hsees
  cases hsees with
  | scalar => exact .ite (.pure ⟨rfl, .nil⟩) .malformed
  | sequence hitems => exact .pure ⟨rfl, hitems⟩
  | mapping => exact .malformed

theorem optionalScalar_eq (h : List.Forall₂ R os os') (hwritten : ∀ o ∈ os, Written doc o) :
    optionalScalar doc path what os.head? = optionalScalar doc' path what os'.head? := by
  cases h with
  | nil => rfl
  | @cons o o' _ _ h _ =>
    change (if o.isNull then pure "" else scalar doc path what o) =
      if o'.isNull then pure "" else scalar doc' path what o'
    rw [hR.isNull h, hwritten o List.mem_cons_self, scalar_eq hR h]

theorem optionalNode_matches (h : List.Forall₂ R os os') (hwritten : ∀ o ∈ os, Written doc o) :
    Matches Eq (optionalNode child path os.head?) (optionalNode child' path os'.head?) := by
  cases h with
  | nil => exact .pure rfl
  | @cons o o' _ _ h _ =>
    change Matches Eq (if o.isNull then pure .absent else child path o)
      (if o'.isNull then pure .absent else child' path o')
    rw [hR.isNull h, hwritten o List.mem_cons_self]
    exact .ite (.pure rfl) (hR.child path h)

theorem nodes_matches (h : List.Forall₂ R os os') :
    Matches Eq (nodes doc child path what os.head?) (nodes doc' child' path what os'.head?) := by
  have hlist : Matches (List.Forall₂ R) (list doc path what os.head?)
      (list doc' path what os'.head?) := by
    cases h with
    | nil => exact .pure .nil
    | cons h _ => exact (list_matches hR h).mono fun _ _ => And.right
  refine .bind hlist fun items items' hitems => .mapM (zipIdx_related hitems 0) ?_
  rintro ⟨item, i⟩ ⟨item', _⟩ ⟨h, rfl⟩
  exact hR.child _ h

theorem names_matches (h : R o o') :
    Matches Eq (names doc path what o) (names doc' path what o') :=
  .bind (list_matches hR h) fun _ _ hitems =>
    .mapM hitems.2 fun _ _ h => .of_eq (scalar_eq hR h)

theorem bindings_matches (h : R o o')
    (hwritten : ∀ d ∈ doc.items o, ∀ init ∈ (doc.items d).drop 1, Written doc init) :
    Matches Eq (bindings doc child path o) (bindings doc' child' path o') := by
  refine .bind (list_matches hR h) ?_
  rintro _ items' ⟨rfl, hitems⟩
  refine .mapM ((List.forall₂_and_left _ _).mpr ⟨hwritten, hitems⟩) fun d d' ⟨hinit, hd⟩ => ?_
  refine .bind (list_matches hR hd) ?_
  rintro _ parts' ⟨rfl, hparts⟩
  generalize doc.items d = parts at hinit hparts
  match hparts with
  | .nil => exact .malformed
  | .cons hx .nil => exact .same (.of_eq (scalar_eq hR hx)) fun _ => .pure rfl
  | .cons hx (.cons hi .nil) =>
    exact .same (.of_eq (scalar_eq hR hx)) fun _ =>
      .same (optionalNode_matches hR (.cons hi .nil) hinit) fun _ => .pure rfl
  | .cons _ (.cons _ (.cons _ _)) => exact .malformed

theorem properties_matches (h : R o o') :
    Matches Eq (properties doc child path o) (properties doc' child' path o') := by
  refine .bind (list_matches hR h) fun _ _ hitems => .mapM hitems.2 fun p p' hp => ?_
  refine .bind (list_matches hR hp) fun parts parts' ⟨_, hparts⟩ => ?_
  match hparts with
  | .cons hk (.cons hv .nil) =>
    exact .same (.of_eq (scalar_eq hR hk)) fun _ => .same (hR.child _ hv) fun _ => .pure rfl
  | .nil | .cons _ .nil | .cons _ (.cons _ (.cons _ _)) => exact .malformed

theorem clauses_matches (h : R o o')
    (hwritten : ∀ c ∈ doc.items o, ∀ test ∈ (doc.items c).take 1, Written doc test) :
    Matches Eq (clauses doc child path o) (clauses doc' child' path o') := by
  refine .bind (list_matches hR h) ?_
  rintro _ items' ⟨rfl, hitems⟩
  refine .mapM (zipIdx_related ((List.forall₂_and_left _ _).mpr ⟨hwritten, hitems⟩) 0) ?_
  rintro ⟨c, i⟩ ⟨c', _⟩ ⟨⟨htest, hc⟩, rfl⟩
  refine .bind (list_matches hR hc) ?_
  rintro _ parts' ⟨rfl, hparts⟩
  dsimp only at htest
  generalize doc.items c = parts at htest hparts
  match hparts with
  | .cons ht (.cons hb .nil) =>
    exact .same (optionalNode_matches hR (.cons ht .nil) htest) fun _ =>
      .same (nodes_matches hR (.cons hb .nil)) fun _ => .pure rfl
  | .nil | .cons _ .nil | .cons _ (.cons _ (.cons _ _)) => exact .malformed

theorem handler_matches (h : List.Forall₂ R os os') (hwritten : ∀ o ∈ os, Written doc o) :
    Matches Eq (handler doc child path os.head?) (handler doc' child' path os'.head?) := by
  cases h with
  | nil => exact .pure rfl
  | @cons o o' _ _ h _ =>
    rw [List.head?_cons, List.head?_cons, handler, handler, hR.isNull h,
      hwritten o List.mem_cons_self]
    refine .ite (.pure rfl) (.bind (list_matches hR h) fun parts parts' ⟨_, hparts⟩ => ?_)
    match hparts with
    | .cons hx (.cons hb .nil) =>
      exact .same (.of_eq (scalar_eq hR hx)) fun _ =>
        .same (nodes_matches hR (.cons hb .nil)) fun _ => .pure rfl
    | .nil | .cons _ .nil | .cons _ (.cons _ (.cons _ _)) => exact .malformed

theorem finalizer_matches (h : List.Forall₂ R os os') (hwritten : ∀ o ∈ os, Written doc o) :
    Matches Eq (finalizer doc child path os.head?) (finalizer doc' child' path os'.head?) := by
  cases h with
  | nil => exact .pure rfl
  | @cons o o' _ _ h _ =>
    rw [List.head?_cons, List.head?_cons, finalizer, finalizer, hR.isNull h,
      hwritten o List.mem_cons_self]
    exact .ite (.pure rfl) (.same (nodes_matches hR (.cons h .nil)) fun _ => .pure rfl)

/-- An operator may be an alias, but not of a flag. -/
theorem assignOperator_eq (h : R o o')
    (hflag : ¬ (o.isAlias && (doc.follow o).isFlag) = true) :
    assignOperator doc path o = assignOperator doc' path o' := by
  have hscalar : scalar doc path "assign" o = scalar doc' path "assign" o' := scalar_eq hR h
  have hsees := hR.sees h
  unfold assignOperator
  rw [hscalar]
  cases o with
  | scalar | sequence | mapping =>
    cases hsees
    rfl
  | reference anchor name line =>
    generalize doc.follow _ = n at hsees hflag
    cases hsees with
    | scalar =>
      have htag : (_ == Yaml.Tag.bool) = false := Bool.eq_false_of_not_eq_true hflag
      simp only [htag, Bool.false_eq_true, if_false]
    | sequence | mapping => rfl

end

/-! ## §4. Nodes. -/

section

variable {kind : Kind}

theorem length_of_accepts {count low high : Nat} (h : kind.accepts count = true)
    (harity : kind.arity = (low, some high)) : low ≤ count ∧ count ≤ high := by
  simpa [Kind.accepts, harity] using h

theorem exists_first (h : List.Forall₂ R os os') (hlength : 1 ≤ os.length) :
    ∃ a a' rest rest', R a a' ∧ List.Forall₂ R rest rest' ∧ os = a :: rest ∧ os' = a' :: rest' := by
  cases h with
  | nil => cases hlength
  | cons ha hrest => exact ⟨_, _, _, _, ha, hrest, rfl, rfl⟩

theorem exists_one (h : List.Forall₂ R os os') (haccepts : kind.accepts os.length = true)
    (harity : kind.arity = (1, some 1)) : ∃ a a', R a a' ∧ os = [a] ∧ os' = [a'] := by
  have hlength := length_of_accepts haccepts harity
  obtain ⟨a, a', rest, rest', ha, hrest, rfl, rfl⟩ := exists_first h hlength.1
  cases hrest with
  | nil => exact ⟨a, a', ha, rfl, rfl⟩
  | cons => simp at hlength

theorem exists_second (h : List.Forall₂ R os os') (hlength : 2 ≤ os.length) :
    ∃ a a' b b' rest rest', R a a' ∧ R b b' ∧ List.Forall₂ R rest rest' ∧
      os = a :: b :: rest ∧ os' = a' :: b' :: rest' := by
  obtain ⟨a, a', more, more', ha, hmore, rfl, rfl⟩ := exists_first h (Nat.le_of_succ_le hlength)
  obtain ⟨b, b', rest, rest', hb, hrest, rfl, rfl⟩ :=
    exists_first hmore (Nat.le_of_succ_le_succ hlength)
  exact ⟨a, a', b, b', rest, rest', ha, hb, hrest, rfl, rfl⟩

theorem exists_two (h : List.Forall₂ R os os') (haccepts : kind.accepts os.length = true)
    (harity : kind.arity = (2, some 2)) :
    ∃ a a' b b', R a a' ∧ R b b' ∧ os = [a, b] ∧ os' = [a', b'] := by
  have hlength := length_of_accepts haccepts harity
  obtain ⟨a, a', b, b', rest, rest', ha, hb, hrest, rfl, rfl⟩ := exists_second h hlength.1
  cases hrest with
  | nil => exact ⟨a, a', b, b', ha, hb, rfl, rfl⟩
  | cons => simp at hlength

theorem exists_third (h : List.Forall₂ R os os') (hlength : 3 ≤ os.length) :
    ∃ a a' b b' c c' rest rest', R a a' ∧ R b b' ∧ R c c' ∧ List.Forall₂ R rest rest' ∧
      os = a :: b :: c :: rest ∧ os' = a' :: b' :: c' :: rest' := by
  obtain ⟨a, a', b, b', more, more', ha, hb, hmore, rfl, rfl⟩ :=
    exists_second h (Nat.le_of_succ_le hlength)
  obtain ⟨c, c', rest, rest', hc, hrest, rfl, rfl⟩ :=
    exists_first hmore (Nat.le_of_add_le_add_right (b := 2) hlength)
  exact ⟨a, a', b, b', c, c', rest, rest', ha, hb, hc, hrest, rfl, rfl⟩

theorem exists_three (h : List.Forall₂ R os os') (haccepts : kind.accepts os.length = true)
    (harity : kind.arity = (3, some 3)) :
    ∃ a a' b b' c c', R a a' ∧ R b b' ∧ R c c' ∧ os = [a, b, c] ∧ os' = [a', b', c'] := by
  have hlength := length_of_accepts haccepts harity
  obtain ⟨a, a', b, b', c, c', rest, rest', ha, hb, hc, hrest, rfl, rfl⟩ :=
    exists_third h hlength.1
  cases hrest with
  | nil => exact ⟨a, a', b, b', c, c', ha, hb, hc, rfl, rfl⟩
  | cons =>
    simp only [List.length_cons] at hlength
    omega

end

section

variable (hR : Follows doc doc' child child' R)
include hR

/-- A body that is left out by way of an alias makes the loop fail, as one that is left out. -/
theorem loopBody_matches {make : Node → Node} (h : R o o') :
    Matches Eq
      (do
        let body ← optionalNode child path (some o)
        if body.isAbsent then malformed path what "missing loop body" else return make body)
      (do
        let body ← optionalNode child' path (some o')
        if body.isAbsent then malformed path what "missing loop body" else return make body) := by
  by_cases hwritten : Written doc o
  · refine .same (optionalNode_matches hR (.cons h .nil) (List.forall_mem_singleton.mpr hwritten))
      fun body => ?_
    exact .ite .malformed (.pure rfl)
  · -- an alias of a null is read as a node here, and fails as one
    obtain ⟨hnull, hfollow⟩ := null_of_not_written hwritten
    have hnull' : o'.isNull = true := (hR.isNull h).trans hfollow
    obtain ⟨e', he', hcategory⟩ := hR.null path hnull'
    have hchild := hR.child path h
    rw [he'] at hchild
    generalize hx : child path o = x at hchild
    cases hchild with
    | failed he =>
      simp only [optionalNode, hnull, hnull', hx]
      exact .failed (he.trans hcategory)

theorem operands_matches {kind : Kind} (h : List.Forall₂ R os os')
    (haccepts : kind.accepts os.length = true) (hclear : doc.overlooks kind os = false) :
    Matches Eq (operands doc child path kind os) (operands doc' child' path kind os') := by
  obtain ⟨hnulls, hflags⟩ := Bool.or_eq_false_iff.mp hclear
  have hwritten : ∀ o ∈ doc.optionals kind os, Written doc o := fun o ho =>
    written_of_any (List.any_eq_false.mp hnulls o ho)
  have first {a a' : Yaml.Node} (ha : R a a') : List.Forall₂ R [a] [a'] := .cons ha .nil
  cases kind with
  | name | num | string | atom =>
    obtain ⟨a, a', ha, rfl, rfl⟩ := exists_one h haccepts rfl
    exact .same (.of_eq (scalar_eq hR ha)) fun _ => .pure rfl
  | regexp =>
    obtain ⟨a, a', rest, rest', ha, hrest, rfl, rfl⟩ :=
      exists_first h (length_of_accepts haccepts rfl).1
    exact .same (.of_eq (scalar_eq hR ha)) fun _ =>
      .same (.of_eq (optionalScalar_eq hR hrest hwritten)) fun _ => .pure rfl
  | array | toplevel | splice =>
    obtain ⟨a, a', ha, rfl, rfl⟩ := exists_one h haccepts rfl
    exact .same (nodes_matches hR (first ha)) fun _ => .pure rfl
  | object =>
    obtain ⟨a, a', ha, rfl, rfl⟩ := exists_one h haccepts rfl
    exact .same (properties_matches hR ha) fun _ => .pure rfl
  | call =>
    obtain ⟨c, c', as, as', hc, has, rfl, rfl⟩ := exists_two h haccepts rfl
    exact .same (hR.child _ hc) fun _ => .same (nodes_matches hR (first has)) fun _ => .pure rfl
  | new =>
    obtain ⟨c, c', rest, rest', hc, hrest, rfl, rfl⟩ :=
      exists_first h (length_of_accepts haccepts rfl).1
    exact .same (hR.child _ hc) fun _ => .same (nodes_matches hR hrest) fun _ => .pure rfl
  | binary =>
    obtain ⟨op, op', l, l', r, r', hop, hl, hr, rfl, rfl⟩ := exists_three h haccepts rfl
    exact .same (.of_eq (scalar_eq hR hop)) fun _ => .same (hR.child _ hl) fun _ =>
      .same (hR.child _ hr) fun _ => .pure rfl
  | unaryBefore | unaryAfter =>
    obtain ⟨op, op', e, e', hop, he, rfl, rfl⟩ := exists_two h haccepts rfl
    exact .same (.of_eq (scalar_eq hR hop)) fun _ => .same (hR.child _ he) fun _ => .pure rfl
  | assign =>
    obtain ⟨op, op', t, t', v, v', hop, ht, hv, rfl, rfl⟩ := exists_three h haccepts rfl
    have hflag := List.any_eq_false.mp hflags op List.mem_cons_self
    exact .same (.of_eq (assignOperator_eq hR hop hflag)) fun _ => .same (hR.child _ ht) fun _ =>
      .same (hR.child _ hv) fun _ => .pure rfl
  | dot =>
    obtain ⟨b, b', f, f', hb, hf, rfl, rfl⟩ := exists_two h haccepts rfl
    exact .same (hR.child _ hb) fun _ => .same (.of_eq (scalar_eq hR hf)) fun _ => .pure rfl
  | sub | whileLoop | doLoop | withObject =>
    obtain ⟨a, a', b, b', ha, hb, rfl, rfl⟩ := exists_two h haccepts rfl
    exact .same (hR.child _ ha) fun _ => .same (hR.child _ hb) fun _ => .pure rfl
  | conditional =>
    obtain ⟨t, t', y, y', n, n', ht, hy, hn, rfl, rfl⟩ := exists_three h haccepts rfl
    exact .same (hR.child _ ht) fun _ => .same (hR.child _ hy) fun _ =>
      .same (hR.child _ hn) fun _ => .pure rfl
  | seq => exact .same (.mapM h fun _ _ h => hR.child _ h) fun _ => .pure rfl
  | function =>
    obtain ⟨f, f', ps, ps', b, b', hf, hps, hb, rfl, rfl⟩ := exists_three h haccepts rfl
    exact .same (.of_eq (optionalScalar_eq hR (first hf) hwritten)) fun _ =>
      .same (names_matches hR hps) fun _ => .same (nodes_matches hR (first hb)) fun _ => .pure rfl
  | defun =>
    obtain ⟨f, f', ps, ps', b, b', hf, hps, hb, rfl, rfl⟩ := exists_three h haccepts rfl
    exact .same (.of_eq (optionalScalar_eq hR (first hf) hwritten)) fun _ =>
      .same (names_matches hR hps) fun _ => .same (nodes_matches hR (first hb)) fun _ =>
      .ite .malformed (.pure rfl)
  | stat | throw =>
    obtain ⟨e, e', he, rfl, rfl⟩ := exists_one h haccepts rfl
    exact .same (hR.child _ he) fun _ => .pure rfl
  | var | const =>
    obtain ⟨ds, ds', hds, rfl, rfl⟩ := exists_one h haccepts rfl
    have hinits : ∀ d ∈ doc.items ds, ∀ init ∈ (doc.items d).drop 1, Written doc init := by
      intro d hd init hinit
      have hd : d ∈ [ds].flatMap doc.items := List.mem_flatMap.mpr ⟨ds, List.mem_cons_self, hd⟩
      exact hwritten init (List.mem_flatMap.mpr ⟨d, hd, hinit⟩)
    exact .same (bindings_matches hR hds hinits) fun _ => .pure rfl
  | block => exact .same (nodes_matches hR h) fun _ => .pure rfl
  | ifElse =>
    obtain ⟨c, c', y, y', rest, rest', hc, hy, hrest, rfl, rfl⟩ :=
      exists_second h (length_of_accepts haccepts rfl).1
    exact .same (hR.child _ hc) fun _ => .same (hR.child _ hy) fun _ =>
      .same (optionalNode_matches hR hrest hwritten) fun _ => .pure rfl
  | forLoop =>
    have hlength := length_of_accepts haccepts rfl
    obtain ⟨i, i', c, c', s, s', rest, rest', hi, hc, hs, hrest, rfl, rfl⟩ :=
      exists_third h (Nat.le_of_succ_le hlength.1)
    obtain ⟨b, b', more, more', hb, hmore, rfl, rfl⟩ :=
      exists_first hrest (Nat.le_of_add_le_add_right (b := 3) hlength.1)
    have hparts : ∀ o ∈ [i, c, s], Written doc o := hwritten
    simp only [List.forall_mem_cons] at hparts
    obtain ⟨hi', hc', hs', -⟩ := hparts
    cases hmore with
    | nil =>
      refine .same (optionalNode_matches hR (first hi) (List.forall_mem_singleton.mpr hi'))
        fun _ => ?_
      refine .same (optionalNode_matches hR (first hc) (List.forall_mem_singleton.mpr hc'))
        fun _ => ?_
      refine .same (optionalNode_matches hR (first hs) (List.forall_mem_singleton.mpr hs'))
        fun _ => ?_
      exact loopBody_matches hR hb
    | cons =>
      simp only [List.length_cons] at hlength
      omega
  | forIn =>
    have hlength := length_of_accepts haccepts rfl
    obtain ⟨i, i', a, a', c, c', rest, rest', hi, ha, hc, hrest, rfl, rfl⟩ :=
      exists_third h hlength.1
    cases hrest with
    | nil =>
      exact .same (hR.child _ hi) fun _ => .same (hR.child _ ha) fun _ =>
        .same (hR.child _ hc) fun _ => .pure rfl
    | cons hb hmore =>
      cases hmore with
      | nil =>
        exact .same (hR.child _ hi) fun _ => .same (hR.child _ hc) fun _ =>
          .same (hR.child _ hb) fun _ => .pure rfl
      | cons =>
        simp only [List.length_cons] at hlength
        omega
  | breakTo | continueTo =>
    exact .same (.of_eq (optionalScalar_eq hR h hwritten)) fun _ => .pure rfl
  | debugger => exact .pure rfl
  | label =>
    obtain ⟨l, l', b, b', hl, hb, rfl, rfl⟩ := exists_two h haccepts rfl
    exact .same (.of_eq (scalar_eq hR hl)) fun _ => .same (hR.child _ hb) fun _ => .pure rfl
  | ret => exact .same (optionalNode_matches hR h hwritten) fun _ => .pure rfl
  | tryCatch =>
    obtain ⟨b, b', rest, rest', hb, hrest, rfl, rfl⟩ :=
      exists_first h (length_of_accepts haccepts rfl).1
    have hlast : ∀ o ∈ rest.drop 1, Written doc o := fun o ho =>
      hwritten o (List.mem_of_mem_drop ho)
    exact .same (nodes_matches hR (first hb)) fun _ =>
      .same (handler_matches hR hrest hwritten) fun _ =>
      .same (finalizer_matches hR (List.forall₂_drop 1 hrest) hlast) fun _ => .pure rfl
  | switch =>
    obtain ⟨d, d', cs, cs', hd, hcs, rfl, rfl⟩ := exists_two h haccepts rfl
    have htests : ∀ c ∈ doc.items cs, ∀ test ∈ (doc.items c).take 1, Written doc test := by
      intro c hc test htest
      have hc : c ∈ [cs].flatMap doc.items := List.mem_flatMap.mpr ⟨cs, List.mem_cons_self, hc⟩
      exact hwritten test (List.mem_flatMap.mpr ⟨c, hc, htest⟩)
    exact .same (hR.child _ hd) fun _ => .same (clauses_matches hR hcs htests) fun _ => .pure rfl

end

/-- A step on a node and one on what is seen of it in the copy. -/
theorem decodeStep_matches {n n' : Yaml.Node} (hR : Follows doc doc' child child' R)
    (h : Sees R (doc.follow n) n') (hclear : doc.overlooksAt n = false) :
    Matches Eq (decodeStep doc child path n) (decodeStep doc' child' path n') := by
  rw [Document.overlooksAt, Document.items] at hclear
  rw [decodeStep, decodeStep, h.follow]
  generalize doc.follow n = m at h hclear
  cases h with
  | scalar | mapping => exact .malformed
  | sequence hitems =>
    cases hitems with
    | nil => exact .malformed
    | @cons head head' ops ops' hhead hops =>
      have hsees := hR.sees hhead
      dsimp only at hclear ⊢
      rw [scalar, scalar, hsees.follow, ← hops.length_eq]
      generalize doc.follow head = k at hsees hclear
      cases hsees with
      | @scalar _ tag =>
        dsimp only at hclear ⊢
        rw [pure_bind, pure_bind]
        cases hkind : Kind.ofTag? tag with
        | none => exact .failed rfl
        | some kind =>
          rw [hkind, Option.any_some] at hclear
          dsimp only
          split
          · next haccepts => exact operands_matches hR hops haccepts hclear
          · exact .malformed
      | sequence | mapping => exact .malformed

/-! ## §5. Documents. -/

open Relation (ReflTransGen)

/-- A node of a document that is read, and a copy of it of less than a size. -/
def Below (doc : Document) (size : Nat) (o o' : Yaml.Node) : Prop :=
  doc.Copy o o' ∧ sizeOf o' < size ∧ ReflTransGen doc.Inside o doc.root

theorem sees_of_copy {n c : Yaml.Node} (hdoc : doc.Linked) (h : doc.Copy n c)
    (hn : ReflTransGen doc.Inside n doc.root) : Sees (Below doc (sizeOf c)) (doc.follow n) c := by
  obtain ⟨halias, hcopy⟩ := h.follow hdoc
  have hinside {tag : Yaml.Tag} {items : List Yaml.Node} {line : Nat}
      (hseq : doc.follow n = .sequence tag items line) :
      ∀ m ∈ items, ReflTransGen doc.Inside m doc.root :=
    fun m hm => .head ⟨tag, items, line, hseq, hm⟩ hn
  generalize doc.follow n = k at halias hcopy hinside
  cases hcopy with
  | scalar => exact .scalar
  | sequence hitems =>
    refine .sequence (List.forall₂_iff_zip.mpr ⟨hitems.length_eq, fun {a b} hab => ?_⟩)
    obtain ⟨ha, hb⟩ := List.of_mem_zip hab
    exact ⟨List.forall₂_zip hitems hab, Document.sizeOf_parts hb, hinside rfl a ha⟩
  | mapping => exact .mapping
  | reference => cases halias

theorem decode_matches (hdoc : doc.Linked) (hclear : ¬ doc.Overlooks) {n c : Yaml.Node}
    (h : doc.Copy n c) (hn : ReflTransGen doc.Inside n doc.root) :
    Matches Eq (doc.decode path n) (doc'.decode path c) := by
  induction hsize : sizeOf c using Nat.strong_induction_on generalizing n c path with
  | h size ih =>
    subst hsize
    rw [Yaml.Document.decode.eq_1, Yaml.Document.decode.eq_1]
    have hfollows : Follows doc doc' doc.decode doc'.decode (Below doc (sizeOf c)) := by
      constructor
      case sees =>
        rintro o o' ⟨ho, hlt, hreach⟩
        refine (sees_of_copy hdoc ho hreach).mono ?_
        rintro a b ⟨hab, hlt', ha⟩
        exact ⟨hab, Nat.lt_trans hlt' hlt, ha⟩
      case child =>
        rintro o o' path ⟨ho, hlt, hreach⟩
        exact ih _ hlt ho hreach rfl
      case null =>
        intro o' path hnull
        rw [Yaml.Document.decode.eq_1]
        cases o' with
        | scalar => exact ⟨_, rfl, rfl⟩
        | sequence | mapping | reference => cases hnull
    exact decodeStep_matches hfollows (sees_of_copy hdoc h hn)
      (Bool.eq_false_of_not_eq_true fun h => hclear ⟨n, hn, h⟩)

end Tree

namespace Node

open Yaml (Document)

theorem ofDocument_of_within {doc : Document} {k : Nat} {r : Except Failure Node}
    (h : Tree.within doc k [] doc.root = some r) : ofDocument doc = r := by
  simp only [ofDocument, Tree.decode_of_within h]

theorem parse_of_within {bytes : Bytes} {doc : Document} {k : Nat} {r : Except Failure Node}
    (hdoc : Document.parse bytes = .ok (some doc)) (h : Tree.within doc k [] doc.root = some r) :
    parse bytes = r := by
  simp only [parse, hdoc, ofDocument_of_within h]

/-- A document in which no alias refers to a node around it has a copy with all aliases written
    out, and is read as any such copy: as the same tree, or with a failure of the same category,
    unless an alias stands for a null or a flag that is only seen where it is written. -/
theorem parse_follows_aliases {bytes : Bytes} {doc : Document}
    (hdoc : Document.parse bytes = .ok (some doc)) (hcyclic : ¬ doc.Cyclic)
    (hclear : ¬ doc.Overlooks) :
    (∃ root, doc.Copy doc.root root) ∧
      ∀ doc' : Document, doc.Copy doc.root doc'.root →
        (parse bytes).mapError Failure.category? =
          (ofDocument doc').mapError Failure.category? := by
  have hlinked := Document.linked_of_parse hdoc
  refine ⟨Document.exists_copy hlinked hcyclic, fun doc' hcopy => ?_⟩
  have hmatches : Tree.Matches Eq (doc.decode [] doc.root) (doc'.decode [] doc'.root) :=
    Tree.decode_matches hlinked hclear hcopy .refl
  simp only [parse, hdoc, ofDocument]
  generalize doc.decode [] doc.root = x at hmatches
  generalize doc'.decode [] doc'.root = y at hmatches
  cases hmatches with
  | ok h => rw [h]
  | failed h => exact congrArg Except.error h
  | endless => rfl

/-- A text in which aliases stand for nodes, for a list and for a text. -/
theorem parse_follows_aliases_of_shared :
    let bytes := Text.bytesOf
      "[\"if\", &f [\"name\", &s \"f\"], [\"stat\", [\"call\", *f, &l [*f]]], [\"array\", *l]]"
    ∃ doc root n, Document.parse bytes = .ok (some doc) ∧ ¬ doc.Cyclic ∧ ¬ doc.Overlooks ∧
      doc.Copy doc.root root ∧ parse bytes = .ok n ∧ ofDocument { root } = .ok n := by
  intro bytes
  obtain ⟨doc, hdoc, h⟩ := Document.exists_of_parses
    (p := fun doc => (Tree.within doc 6 [] doc.root).any (·.isOk) &&
      (doc.expand 6 doc.root).isSome && doc.nodes.all fun n => !doc.overlooksAt n)
    (show Document.parses bytes _ = true by decide +kernel)
  obtain ⟨h, hnodes⟩ := Bool.and_eq_true_iff.mp h
  obtain ⟨hread, hexpand⟩ := Bool.and_eq_true_iff.mp h
  obtain ⟨r, hr, hread⟩ := (Option.any_eq_true _ _).mp hread
  obtain ⟨root, hroot⟩ := Option.isSome_iff_exists.mp hexpand
  have hcopy := Document.copy_of_expand hroot
  have hcyclic := hcopy.not_cyclic (Document.linked_of_parse hdoc)
  have hclear := Document.not_overlooks_of_nodes hnodes
  have hsame := (parse_follows_aliases hdoc hcyclic hclear).2 { root } hcopy
  have hparse := parse_of_within hdoc hr
  cases r with
  | error e => cases hread
  | ok n =>
    refine ⟨doc, root, n, hdoc, hcyclic, hclear, hcopy, hparse, ?_⟩
    rw [hparse] at hsame
    cases hcopied : ofDocument { root } with
    | error e =>
      rw [hcopied] at hsame
      cases hsame
    | ok m =>
      rw [hcopied] at hsame
      cases hsame
      rfl

/-- An `else` that is an alias of a null is read as a node, and the text is refused. -/
theorem parse_overlooks_null :
    let bytes := Text.bytesOf "[\"if\", [\"name\", \"a\"], [\"block\", &n null], *n]"
    ∃ doc root e n, Document.parse bytes = .ok (some doc) ∧ ¬ doc.Cyclic ∧
      doc.Copy doc.root root ∧ parse bytes = .error e ∧ ofDocument { root } = .ok n := by
  intro bytes
  obtain ⟨doc, hdoc, h⟩ := Document.exists_of_parses
    (p := fun doc => (Tree.within doc 3 [] doc.root).any (!·.isOk) &&
      (doc.expand 3 doc.root).any fun root => (Tree.within { root } 3 [] root).any (·.isOk))
    (show Document.parses bytes _ = true by decide +kernel)
  obtain ⟨hrefused, hexpand⟩ := Bool.and_eq_true_iff.mp h
  obtain ⟨r, hr, hrefused⟩ := (Option.any_eq_true _ _).mp hrefused
  obtain ⟨root, hroot, hread⟩ := (Option.any_eq_true _ _).mp hexpand
  obtain ⟨r', hr', hread⟩ := (Option.any_eq_true _ _).mp hread
  have hcopy := Document.copy_of_expand hroot
  have hcyclic := hcopy.not_cyclic (Document.linked_of_parse hdoc)
  cases r with
  | ok n => cases hrefused
  | error e =>
    cases r' with
    | error e' => cases hread
    | ok n =>
      exact ⟨doc, root, e, n, hdoc, hcyclic, hcopy, parse_of_within hdoc hr,
        ofDocument_of_within hr'⟩

end Node

end Resumable
