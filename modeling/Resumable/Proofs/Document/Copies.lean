/-
  Resumable.Proofs.Document.Copies — documents with their aliases written out.

  A copy of a node has in place of an alias a copy of the node that the alias refers to, at any
  depth; where a node is written, and in which quotes, is not copied.  A copy is a tree: what is
  inside a node has the smaller copy.  So a document has a copy exactly if no alias refers to a node
  around it (`exists_copy_iff`).  One direction is the induction on the size of the copy, the other
  goes over the nodes of the document, which are finitely many.

  Main statement: `exists_copy_iff`.
-/
import Mathlib.Data.Fintype.Card
import Mathlib.Data.Set.Finite.Lattice
import Mathlib.Logic.Relation
import Mathlib.Order.WellFounded
import Resumable.Proofs.Document.Anchors
import Resumable.Proofs.Support

namespace Resumable.Yaml.Document

open Relation (ReflTransGen TransGen)

/-! ## §1. Copies. -/

/-- The second node is the first with every alias replaced by a copy of what it refers to. -/
inductive Copy (doc : Document) : Node → Node → Prop
  | scalar {tag : Tag} {value : String} {style style' : ScalarStyle} {line line' : Nat} :
      Copy doc (.scalar tag value style line) (.scalar tag value style' line')
  | sequence {tag : Tag} {items items' : List Node} {line line' : Nat}
      (h : List.Forall₂ (Copy doc) items items') :
      Copy doc (.sequence tag items line) (.sequence tag items' line')
  | mapping {tag : Tag} {entries entries' : List (Node × Node)} {line line' : Nat}
      (hkeys : List.Forall₂ (Copy doc) (entries.map (·.1)) (entries'.map (·.1)))
      (hvalues : List.Forall₂ (Copy doc) (entries.map (·.2)) (entries'.map (·.2))) :
      Copy doc (.mapping tag entries line) (.mapping tag entries' line')
  | reference {anchor : Nat} {name : String} {line : Nat} {target copy : Node}
      (htarget : doc.anchored? anchor = some target) (h : Copy doc target copy) :
      Copy doc (.reference anchor name line) copy

/-- What a node of a document, or the node it refers to, is put together from. -/
def Holds (doc : Document) (m n : Node) : Prop := m ∈ (doc.follow n).parts

/-- An alias refers to a node around it, so that there is a node inside itself. -/
def Cyclic (doc : Document) : Prop :=
  ∃ n, ReflTransGen doc.Holds n doc.root ∧ TransGen doc.Holds n n

variable {doc : Document} {m n : Node}

/-- A copy is not an alias. -/
theorem Copy.isAlias {n c : Node} : doc.Copy n c → c.isAlias = false
  | .scalar | .sequence _ | .mapping _ _ => rfl
  | .reference _ h => h.isAlias

/-! ## §2. What has a copy has no circles. -/

theorem mem_parts_mapping {tag : Tag} {entries : List (Node × Node)} {line : Nat} :
    m ∈ (Node.mapping tag entries line).parts ↔
      m ∈ entries.map (·.1) ∨ m ∈ entries.map (·.2) := by
  simp only [Node.parts, List.mem_flatMap, List.mem_map, List.mem_cons, List.not_mem_nil, or_false]
  constructor
  · rintro ⟨e, he, rfl | rfl⟩
    · exact .inl ⟨e, he, rfl⟩
    · exact .inr ⟨e, he, rfl⟩
  · rintro (⟨e, he, rfl⟩ | ⟨e, he, rfl⟩)
    · exact ⟨e, he, .inl rfl⟩
    · exact ⟨e, he, .inr rfl⟩

theorem sizeOf_parts (h : m ∈ n.parts) : sizeOf m < sizeOf n := by
  cases n with
  | scalar | reference => cases h
  | sequence tag items line =>
    have := List.sizeOf_lt_of_mem (show m ∈ items from h)
    simp only [Node.sequence.sizeOf_spec]
    omega
  | mapping tag entries line =>
    obtain ⟨e, he, hm⟩ := List.mem_flatMap.mp (show m ∈ entries.flatMap fun e => [e.1, e.2] from h)
    have := List.sizeOf_lt_of_mem he
    have hpair : sizeOf e = 1 + sizeOf e.1 + sizeOf e.2 := rfl
    rcases (List.mem_cons.trans (or_congr_right List.mem_singleton)).mp hm with rfl | rfl <;>
    · simp only [Node.mapping.sizeOf_spec]
      omega

/-- What a node holds has its copy among the parts of the copy. -/
theorem Copy.part {c : Node} (h : doc.Copy n c) (hn : n.isAlias = false) (hm : m ∈ n.parts) :
    ∃ c' ∈ c.parts, doc.Copy m c' := by
  cases h with
  | scalar => cases hm
  | sequence h => exact exists_related h _ hm
  | mapping hkeys hvalues =>
    rcases mem_parts_mapping.mp hm with hm | hm
    · obtain ⟨c', hc', h⟩ := exists_related hkeys _ hm
      exact ⟨c', mem_parts_mapping.mpr (.inl hc'), h⟩
    · obtain ⟨c', hc', h⟩ := exists_related hvalues _ hm
      exact ⟨c', mem_parts_mapping.mpr (.inr hc'), h⟩
  | reference => cases hn

/-- A copy of a node is one of what the node refers to. -/
theorem Copy.follow {c : Node} (hdoc : doc.Linked) (h : doc.Copy n c) :
    (doc.follow n).isAlias = false ∧ doc.Copy (doc.follow n) c := by
  cases h with
  | scalar => exact ⟨rfl, .scalar⟩
  | sequence h => exact ⟨rfl, .sequence h⟩
  | mapping hkeys hvalues => exact ⟨rfl, .mapping hkeys hvalues⟩
  | @reference anchor name line target _ htarget h =>
    have hfollow : doc.follow (.reference anchor name line) = target := by
      rw [Document.follow, htarget, Option.getD_some]
    obtain ⟨e, he, rfl⟩ := Option.map_eq_some_iff.mp htarget
    exact hfollow ▸ ⟨hdoc.target e (List.mem_of_find?_eq_some he), h⟩

theorem Copy.of_follow {c : Node} (h : doc.Copy (doc.follow n) c) : doc.Copy n c := by
  cases n with
  | reference anchor name line =>
    rw [Document.follow] at h
    cases htarget : doc.anchored? anchor with
    | none => rwa [htarget] at h
    | some target =>
      rw [htarget] at h
      exact .reference htarget h
  | scalar | sequence | mapping => exact h

/-- What is inside a node has the smaller copy. -/
theorem Copy.within {c : Node} (hdoc : doc.Linked) (h : doc.Copy n c)
    (hm : TransGen doc.Holds m n) : ∃ c', doc.Copy m c' ∧ sizeOf c' < sizeOf c := by
  have step {m n c : Node} (h : doc.Copy n c) (hm : doc.Holds m n) :
      ∃ c', doc.Copy m c' ∧ sizeOf c' < sizeOf c := by
    obtain ⟨halias, hfollow⟩ := h.follow hdoc
    obtain ⟨c', hc', hcopy⟩ := hfollow.part halias hm
    exact ⟨c', hcopy, sizeOf_parts hc'⟩
  induction hm using TransGen.head_induction_on with
  | single hm => exact step h hm
  | head hm _ ih =>
    obtain ⟨c', h', hlt⟩ := ih
    obtain ⟨c'', h'', hlt'⟩ := step h' hm
    exact ⟨c'', h'', Nat.lt_trans hlt' hlt⟩

/-- A node that has a copy is not inside itself. -/
theorem Copy.not_within {c : Node} (hdoc : doc.Linked) (h : doc.Copy n c) :
    ¬ TransGen doc.Holds n n := by
  intro hn
  induction hsize : sizeOf c using Nat.strong_induction_on generalizing c with
  | h _ ih =>
    obtain ⟨c', h', hlt⟩ := h.within hdoc hn
    exact ih _ (hsize ▸ hlt) h' rfl

theorem Copy.not_cyclic {root : Node} (hdoc : doc.Linked) (h : doc.Copy doc.root root) :
    ¬ doc.Cyclic := by
  rintro ⟨n, hreach, hn⟩
  rcases Relation.reflTransGen_iff_eq_or_transGen.mp hreach with heq | hreach
  · exact h.not_within hdoc (heq ▸ hn)
  · obtain ⟨c, hc, -⟩ := h.within hdoc hreach
    exact hc.not_within hdoc hn

/-! ## §3. What has no circles has a copy. -/

/-- The nodes that a document is put together from. -/
def bases (doc : Document) : List Node := doc.root :: doc.anchors.map (·.2)

theorem finite_parts (n : Node) : {m | ReflTransGen (· ∈ Node.parts ·) m n}.Finite := by
  have hfinite : (⋃ k ∈ {k | k ∈ n.parts}, {m | ReflTransGen (· ∈ Node.parts ·) m k}).Finite :=
    n.parts.finite_toSet.biUnion fun k hk => finite_parts k
  refine ((Set.finite_singleton n).union hfinite).subset fun m hm => ?_
  rcases ReflTransGen.cases_tail hm with rfl | ⟨k, hm, hk⟩
  · exact .inl rfl
  · exact .inr (Set.mem_biUnion hk hm)
termination_by sizeOf n
decreasing_by exact sizeOf_parts hk

theorem follow_cases (doc : Document) (n : Node) :
    doc.follow n = n ∨ ∃ e ∈ doc.anchors, doc.follow n = e.2 := by
  cases n with
  | reference anchor name line =>
    rw [follow, anchored?]
    cases hfind : doc.anchors.find? (fun e => e.1 == anchor) with
    | none => exact .inl rfl
    | some e => exact .inr ⟨e, List.mem_of_find?_eq_some hfind, rfl⟩
  | scalar | sequence | mapping => exact .inl rfl

/-- What is inside the root, behind aliases as well, is written in the document. -/
theorem exists_base (h : ReflTransGen doc.Holds n doc.root) :
    ∃ b ∈ doc.bases, ReflTransGen (· ∈ Node.parts ·) n b := by
  induction h using ReflTransGen.head_induction_on with
  | refl => exact ⟨doc.root, List.mem_cons_self, .refl⟩
  | @head m n hm _ ih =>
    obtain ⟨b, hb, hn⟩ := ih
    unfold Holds at hm
    rcases doc.follow_cases n with heq | ⟨e, he, heq⟩
    · exact ⟨b, hb, hn.head (heq ▸ hm)⟩
    · have he : e.2 ∈ doc.bases := List.mem_cons_of_mem _ (List.mem_map_of_mem he)
      exact ⟨e.2, he, .single (heq ▸ hm)⟩

theorem finite_inside (doc : Document) : {n | ReflTransGen doc.Holds n doc.root}.Finite := by
  refine (doc.bases.finite_toSet.biUnion fun b _ => finite_parts b).subset fun n hn => ?_
  obtain ⟨b, hb, h⟩ := exists_base hn
  exact Set.mem_biUnion hb h

/-- Aliases inside the root refer to nodes. -/
theorem Linked.anchored_inside (hdoc : doc.Linked) (hn : ReflTransGen doc.Holds n doc.root)
    {a : Nat} (ha : n.Refers a) : (doc.anchored? a).isSome := by
  obtain ⟨b, hb, hpart⟩ := exists_base hn
  have hrefers : b.Refers a := by
    clear hb hn
    induction hpart with
    | refl => exact ha
    | tail _ hm ih => exact .part hm ih
  rcases List.mem_cons.mp hb with rfl | hb
  · exact hdoc.root a hrefers
  · obtain ⟨e, he, rfl⟩ := List.mem_map.mp hb
    exact hdoc.anchored e he a hrefers

theorem exists_copy_of_parts (hn : n.isAlias = false) (h : ∀ m ∈ n.parts, ∃ c, doc.Copy m c) :
    ∃ c, doc.Copy n c := by
  choose! f hf using h
  have hmap {ms : List Node} (hms : ∀ m ∈ ms, m ∈ n.parts) :
      List.Forall₂ doc.Copy ms (ms.map f) :=
    List.forall₂_map_right_iff.mpr (List.forall₂_same.mpr fun m hm => hf m (hms m hm))
  cases n with
  | scalar tag value style line => exact ⟨.scalar tag value style line, .scalar⟩
  | sequence tag items line =>
    exact ⟨.sequence tag (items.map f) line, .sequence (hmap fun _ hm => hm)⟩
  | mapping tag entries line =>
    refine ⟨.mapping tag (entries.map fun e => (f e.1, f e.2)) line, .mapping ?_ ?_⟩
    · simpa using hmap fun m hm => mem_parts_mapping.mpr (.inl hm)
    · simpa using hmap fun m hm => mem_parts_mapping.mpr (.inr hm)
  | reference => cases hn

/-- An alias inside the root refers to a node that is no alias. -/
theorem Linked.follow_isAlias (hdoc : doc.Linked) (hn : ReflTransGen doc.Holds n doc.root) :
    (doc.follow n).isAlias = false := by
  cases n with
  | reference anchor name line =>
    obtain ⟨target, htarget⟩ := Option.isSome_iff_exists.mp (hdoc.anchored_inside hn .here)
    obtain ⟨e, he, rfl⟩ := Option.map_eq_some_iff.mp htarget
    rw [follow, htarget, Option.getD_some]
    exact hdoc.target e (List.mem_of_find?_eq_some he)
  | scalar | sequence | mapping => rfl

theorem exists_copy (hdoc : doc.Linked) (hcyclic : ¬ doc.Cyclic) :
    ∃ root, doc.Copy doc.root root := by
  let Below (m n : {n // ReflTransGen doc.Holds n doc.root}) : Prop := TransGen doc.Holds m n
  have hwf : WellFounded Below := by
    have : Finite {n // ReflTransGen doc.Holds n doc.root} := doc.finite_inside.to_subtype
    have : IsTrans _ Below := ⟨fun _ _ _ => TransGen.trans⟩
    have : Std.Irrefl Below := ⟨fun n hn => hcyclic ⟨n, n.2, hn⟩⟩
    exact Finite.wellFounded_of_trans_of_irrefl Below
  suffices ∀ n : {n // ReflTransGen doc.Holds n doc.root}, ∃ c, doc.Copy n c from
    this ⟨doc.root, .refl⟩
  intro n
  induction n using hwf.induction with
  | h n ih =>
    obtain ⟨c, hc⟩ := exists_copy_of_parts (hdoc.follow_isAlias n.2) fun m hm =>
      ih ⟨m, .head hm n.2⟩ (.single hm)
    exact ⟨c, .of_follow hc⟩

/-- The aliases of a text can be written out exactly if none refers to a node around it. -/
theorem exists_copy_iff {bytes : Bytes} (h : Document.parse bytes = .ok (some doc)) :
    (∃ root, doc.Copy doc.root root) ↔ ¬ doc.Cyclic :=
  ⟨fun ⟨_, hroot⟩ => hroot.not_cyclic (linked_of_parse h), exists_copy (linked_of_parse h)⟩

/-! ## §4. Copies that are computed. -/

/-- Writes the aliases of a node out, down to a depth. -/
def expand (doc : Document) : Nat → Node → Option Node
  | 0, _ => none
  | k + 1, n =>
      match doc.follow n with
      | .scalar tag value style line => some (.scalar tag value style line)
      | .sequence tag items line => do
          return .sequence tag (← items.mapM (doc.expand k)) line
      | .mapping tag entries line => do
          let keys ← (entries.map (·.1)).mapM (doc.expand k)
          let values ← (entries.map (·.2)).mapM (doc.expand k)
          return .mapping tag (keys.zip values) line
      | .reference _ _ _ => none

theorem copy_of_expand {k : Nat} {c : Node} (h : doc.expand k n = some c) : doc.Copy n c := by
  induction k generalizing n c with
  | zero => cases h
  | succ k ih =>
    have hall {ms cs : List Node} (h : ms.mapM (doc.expand k) = some cs) :
        List.Forall₂ doc.Copy ms cs := (related_of_mapM h).imp fun _ _ => ih
    rw [expand] at h
    refine .of_follow ?_
    cases hfollow : doc.follow n with
    | scalar =>
      rw [hfollow] at h
      cases h
      exact .scalar
    | sequence tag items line =>
      rw [hfollow] at h
      obtain ⟨items, hitems, h⟩ := Option.bind_eq_some_iff.mp h
      cases h
      exact .sequence (hall hitems)
    | mapping tag entries line =>
      rw [hfollow] at h
      obtain ⟨keys, hkeys, h⟩ := Option.bind_eq_some_iff.mp h
      obtain ⟨values, hvalues, h⟩ := Option.bind_eq_some_iff.mp h
      cases h
      have hlength : keys.length = values.length := by
        rw [← (hall hkeys).length_eq, ← (hall hvalues).length_eq, List.length_map, List.length_map]
      refine .mapping ?_ ?_
      · simpa [List.map_fst_zip hlength.le] using hall hkeys
      · simpa [List.map_snd_zip hlength.ge] using hall hvalues
    | reference =>
      rw [hfollow] at h
      cases h

end Resumable.Yaml.Document
