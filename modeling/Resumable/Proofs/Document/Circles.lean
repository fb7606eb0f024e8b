/-
  Resumable.Proofs.Document.Circles — readings that end.

  An alias may refer to a list around it, and a reading follows it as if the list stood there once
  more.  So a document is a graph to a reading, and the depth of the text is no bound for it.

  Where no node is inside itself there is a bound, the number of the nodes: what is inside a node
  has fewer nodes inside than the node itself (`inside_lt`).  The induction is on that number.  A
  document without anchors has no circles.

  Nothing looks for circles, so a reading that is led into one has no end (`decode_circle`).

  Main statement: `parse_ends`.
-/
import Mathlib.Data.Set.Card
import Mathlib.Logic.Relation
import Resumable.Proofs.Document.Reading

namespace Resumable

open Relation (ReflTransGen TransGen)

namespace Yaml

/-! ## §1. The nodes of a document. -/

mutual

/-- A node and what is among the items of its lists, at any depth. -/
def Node.listed : Node → List Node
  | .sequence tag items line => .sequence tag items line :: listedAll items
  | n => [n]

/-- The nodes of a list and what is among the items of their lists. -/
def listedAll : List Node → List Node
  | [] => []
  | n :: rest => n.listed ++ listedAll rest

end

namespace Node

theorem listed_self (n : Node) : n ∈ n.listed := by
  cases n <;> exact List.mem_cons_self

theorem listedAll_eq (ns : List Node) : listedAll ns = ns.flatMap listed := by
  induction ns with
  | nil => rfl
  | cons n ns ih => rw [listedAll, ih, List.flatMap_cons]

/-- The items of a list in a node are in the node. -/
theorem listed_item {tag : Tag} {items : List Node} {line : Nat} {m n : Node}
    (hl : .sequence tag items line ∈ n.listed) (hm : m ∈ items) : m ∈ n.listed := by
  cases n with
  | sequence tag' items' line' =>
    rw [listed, listedAll_eq] at hl ⊢
    rcases List.mem_cons.mp hl with heq | hl
    · cases heq
      exact List.mem_cons_of_mem _ (List.mem_flatMap.mpr ⟨m, hm, listed_self m⟩)
    · obtain ⟨item, hitem, hl⟩ := List.mem_flatMap.mp hl
      have := List.sizeOf_lt_of_mem hitem
      exact List.mem_cons_of_mem _ (List.mem_flatMap.mpr ⟨item, hitem, listed_item hl hm⟩)
  | scalar | mapping | reference => cases List.mem_singleton.mp hl
termination_by sizeOf n

end Node

namespace Document

variable {doc : Document} {m n : Node}

/-- All nodes that a reading may come to. -/
def nodes (doc : Document) : List Node :=
  doc.root.listed ++ doc.anchors.flatMap fun a => a.2.listed

theorem mem_nodes_root : doc.root ∈ doc.nodes := List.mem_append_left _ doc.root.listed_self

theorem mem_nodes_follow (h : n ∈ doc.nodes) : doc.follow n ∈ doc.nodes := by
  cases n with
  | reference anchor name line =>
    rw [follow, anchored?]
    cases hfind : doc.anchors.find? (fun a => a.1 == anchor) with
    | none => exact h
    | some a =>
      have ha : a ∈ doc.anchors := List.mem_of_find?_eq_some hfind
      exact List.mem_append_right _ (List.mem_flatMap.mpr ⟨a, ha, a.2.listed_self⟩)
  | scalar | sequence | mapping => exact h

theorem mem_nodes_inside (h : doc.Inside m n) (hn : n ∈ doc.nodes) : m ∈ doc.nodes := by
  obtain ⟨tag, items, line, hfollow, hm⟩ := h
  have hl := mem_nodes_follow hn
  rw [hfollow] at hl
  rcases List.mem_append.mp hl with hl | hl
  · exact List.mem_append_left _ (Node.listed_item hl hm)
  · obtain ⟨a, ha, hl⟩ := List.mem_flatMap.mp hl
    exact List.mem_append_right _ (List.mem_flatMap.mpr ⟨a, ha, Node.listed_item hl hm⟩)

/-! ## §2. Circles. -/

/-- What is inside a node at any depth. -/
def Within (doc : Document) (m n : Node) : Prop := TransGen doc.Inside m n

/-- Whether the root is, or has inside, a node that is inside itself. -/
def Circular (doc : Document) : Prop := ∃ n, ReflTransGen doc.Inside n doc.root ∧ doc.Within n n

theorem mem_nodes_within (h : doc.Within m n) (hn : n ∈ doc.nodes) : m ∈ doc.nodes := by
  induction h with
  | single h => exact mem_nodes_inside h hn
  | tail _ h ih => exact ih (mem_nodes_inside h hn)

theorem finite_within (hn : n ∈ doc.nodes) : {m | doc.Within m n}.Finite :=
  doc.nodes.finite_toSet.subset fun _ hm => mem_nodes_within hm hn

/-- Fewer nodes are inside what is inside a node. -/
theorem inside_lt (h : doc.Within m n) (hn : n ∈ doc.nodes) (hm : ¬ doc.Within m m) :
    {k | doc.Within k m}.ncard < {k | doc.Within k n}.ncard := by
  refine Set.ncard_lt_ncard ⟨fun k hk => TransGen.trans hk h, fun hsub => ?_⟩ (finite_within hn)
  exact hm (hsub h)

/-- No more nodes are inside a node than there are. -/
theorem ncard_within_le (hn : n ∈ doc.nodes) :
    {m | doc.Within m n}.ncard ≤ doc.nodes.length := by
  classical
  calc {m | doc.Within m n}.ncard
      ≤ (doc.nodes.toFinset : Set Node).ncard :=
        Set.ncard_le_ncard (fun m hm => by simpa using mem_nodes_within hm hn)
    _ = doc.nodes.toFinset.card := Set.ncard_coe_finset _
    _ ≤ doc.nodes.length := List.toFinset_card_le _

end Document

end Yaml

/-! ## §3. Readings. -/

namespace Tree

open Yaml (Document)

variable {doc : Document}

/-- Where no node is inside itself, a reading goes no deeper than there are nodes inside. -/
theorem within_reads (hdoc : ¬ doc.Circular) {k : Nat} {n : Yaml.Node} (path : Path)
    (hn : ReflTransGen doc.Inside n doc.root) (hk : {m | doc.Within m n}.ncard < k) :
    Reads False Node.Complete (within doc k path n) := by
  induction k generalizing n path with
  | zero => exact absurd hk (Nat.not_lt_zero _)
  | succ k ih =>
    have hnode : n ∈ doc.nodes := by
      rcases Relation.reflTransGen_iff_eq_or_transGen.mp hn with heq | hn
      · exact heq ▸ Document.mem_nodes_root
      · exact Document.mem_nodes_within hn Document.mem_nodes_root
    have hclosed : Closed doc (doc.Within · n) := fun _ _ => TransGen.head
    -- the operands are inside the node, and fewer nodes are inside an operand
    refine decodeStep_reads (fun path m hm => ?_) hclosed fun _ => TransGen.single
    have hm' : ReflTransGen doc.Inside m doc.root := hm.to_reflTransGen.trans hn
    have hlt := Document.inside_lt hm hnode fun hself => hdoc ⟨m, hm', hself⟩
    exact ih path hm' (by omega)

/-- Where no node is inside itself, as many steps as there are nodes are enough. -/
theorem within_ends (hdoc : ¬ doc.Circular) :
    ∃ r, within doc (doc.nodes.length + 1) [] doc.root = some r ∧
      ∀ e, r = .error e → e.OfParse := by
  have hle := Document.ncard_within_le (show doc.root ∈ doc.nodes from Document.mem_nodes_root)
  have hreads := within_reads hdoc [] .refl (Nat.lt_succ_of_le hle)
  cases hr : within doc (doc.nodes.length + 1) [] doc.root with
  | none =>
    rw [hr] at hreads
    cases hreads with
    | endless h => cases h
  | some r =>
    refine ⟨r, rfl, ?_⟩
    rintro e rfl
    rw [hr] at hreads
    cases hreads with
    | failed he => exact he

/-- The anchor that an array refers to, if it has one element and this is an alias. -/
def arrayOf? : Yaml.Node → Option Nat
  | .sequence _ [.scalar _ "array" _ _, .sequence _ [.reference anchor _ _] _] _ => some anchor
  | _ => none

theorem nodes_alone {child : NodeReader} {path : Path} {what : String} {m : Yaml.Node}
    {tag : Yaml.Tag} {line : Nat} (hm : ∀ path, child path m = none) :
    nodes doc child path what (some (.sequence tag [m] line)) = none := by
  have hlist : list doc path what (some (.sequence tag [m] line)) = pure [m] := rfl
  rw [nodes, hlist, pure_bind, List.zipIdx_singleton, List.mapM_cons]
  dsimp only
  rw [hm]
  rfl

/-- An array whose only element is an alias of such an array is read for ever. -/
theorem decode_circle {anchor : Nat} {path : Path} {n : Yaml.Node}
    (hanchor : (doc.anchored? anchor).bind arrayOf? = some anchor)
    (hn : arrayOf? (doc.follow n) = some anchor) : doc.decode path n = none := by
  have hcircle : ∀ name line,
      arrayOf? (doc.follow (.reference anchor name line)) = some anchor := by
    intro name line
    cases hk : doc.anchored? anchor with
    | none => simp [hk] at hanchor
    | some k => simpa [Document.follow, hk] using hanchor
  -- no such array is among the nodes that the least reading has an answer for
  have step := Yaml.Document.decode.partial_correctness doc
    fun _ n _ => arrayOf? (doc.follow n) ≠ some anchor
  cases hr : doc.decode path n with
  | none => rfl
  | some r =>
    refine absurd hn (step (fun child hchild path n r hr hn => ?_) path n r hr)
    have hnone : ∀ path name line, child path (.reference anchor name line) = none := by
      intro path name line
      cases hc : child path (.reference anchor name line) with
      | none => rfl
      | some r => exact absurd (hcircle name line) (hchild path _ r hc)
    unfold arrayOf? at hn
    split at hn
    · next hfollow =>
      cases hn
      rw [decodeStep, hfollow] at hr
      change operands doc child ("array" :: path) .array [.sequence _ [_] _] = _ at hr
      change (do return Node.array (← nodes doc child _ "elements" (some (.sequence _ [_] _)))) = _
        at hr
      rw [nodes_alone fun path => hnone path _ _] at hr
      cases hr
    · cases hn

end Tree

namespace Node

open Resumable.Tree (arrayOf?)
open Yaml (Document)

/-- A text of an array whose only element is an alias of such an array. -/
def isCircle (bytes : Bytes) : Bool :=
  Document.parses bytes fun doc =>
    match arrayOf? (doc.follow doc.root) with
    | some anchor => (doc.anchored? anchor).bind arrayOf? == some anchor
    | none => false

theorem endless_of_isCircle {bytes : Bytes} (h : isCircle bytes = true) :
    parse bytes = .error .endless ∧ ∀ k, parseWithin k bytes = none := by
  obtain ⟨doc, hdoc, hcircle⟩ := Document.exists_of_parses h
  split at hcircle
  · next anchor hroot =>
    have hnone : doc.decode [] doc.root = none :=
      Tree.decode_circle (beq_iff_eq.mp hcircle) hroot
    refine ⟨by simp only [parse, hdoc, ofDocument, hnone], fun k => ?_⟩
    simp only [parseWithin, hdoc]
    cases hk : Tree.within doc k [] doc.root with
    | none => rfl
    | some r =>
      rw [Tree.decode_of_within hk] at hnone
      cases hnone
  · cases hcircle

/-- The reading of a document ends behind finitely many steps, with a tree or with a report of its
    phase, unless there is a node in the document that is inside itself. -/
theorem parse_ends (bytes : Bytes) :
    (∃ doc, Document.parse bytes = .ok (some doc) ∧ doc.Circular) ∨
      ∃ k r, parseWithin k bytes = some r ∧ parse bytes = r ∧ ∀ e, r = .error e → e.OfParse := by
  rw [or_iff_not_imp_left]
  intro hcircles
  obtain ⟨k, r, hr, he⟩ : ∃ k r, parseWithin k bytes = some r ∧ ∀ e, r = .error e → e.OfParse := by
    unfold parseWithin
    cases hdoc : Document.parse bytes with
    | error e => exact ⟨0, _, rfl, by rintro _ ⟨⟩; exact ⟨_, _, rfl, rfl⟩⟩
    | ok doc =>
      cases doc with
      | none => exact ⟨0, _, rfl, by rintro _ ⟨⟩; exact ⟨_, _, rfl, rfl⟩⟩
      | some doc => exact ⟨_, Tree.within_ends fun h => hcircles ⟨doc, hdoc, h⟩⟩
  exact ⟨k, r, hr, parse_of_parseWithin hr, he⟩

/-- The array that holds itself is read for ever. -/
theorem parse_follows_circles :
    let bytes := Text.bytesOf "&a [\"array\", [*a]]"
    parse bytes = .error .endless ∧ ∀ k, parseWithin k bytes = none :=
  endless_of_isCircle (by decide +kernel)

end Node

end Resumable
