/-
  Resumable.Proofs.Document.Anchors — what the aliases of a text refer to.

  An anchor has its number from its name on, and its node only behind the end of the node.  In
  between it is pending: an alias may refer to it, and nothing is recorded yet.  A reader settles
  what it opens, so no anchor is pending behind a whole document.

  The invariant (`Reader.Sound`) says what is recorded, apart from the pending anchors, and that
  numbers in use have been given out.  What a node refers to is bounded by the count of names, which
  only grows; so a step is stated from a count on (`Keeps`), and what was read before stays bounded.
  The induction is on the fuel, for all readers together.

  Main statement: `linked_of_parse`.
-/
import Resumable.Yaml.Node

namespace Resumable.Yaml

/-! ## §1. Nodes and what they refer to. -/

namespace Node

/-- The nodes a node is put together from. -/
def parts : Node → List Node
  | sequence _ items _ => items
  | mapping _ entries _ => entries.flatMap fun e => [e.1, e.2]
  | scalar _ _ _ _ | reference _ _ _ => []

/-- Whether the node is an alias. -/
def isAlias : Node → Bool
  | reference _ _ _ => true
  | _ => false

/-- A node has an alias of the given anchor in it. -/
inductive Refers (anchor : Nat) : Node → Prop
  | here {name : String} {line : Nat} : Refers anchor (reference anchor name line)
  | part {m n : Node} (hm : m ∈ n.parts) (h : Refers anchor m) : Refers anchor n

/-- The anchors a node refers to have smaller numbers. -/
def Bounded (k : Nat) (n : Node) : Prop := ∀ a, n.Refers a → a < k

variable {k k' : Nat}

theorem Bounded.mono {n : Node} (h : n.Bounded k) (hk : k ≤ k') : n.Bounded k' :=
  fun a ha => Nat.lt_of_lt_of_le (h a ha) hk

theorem bounded_scalar {tag : Tag} {value : String} {style : ScalarStyle} {line : Nat} :
    (scalar tag value style line).Bounded k := by
  rintro a (_ | ⟨hm, _⟩)
  cases hm

theorem bounded_sequence {tag : Tag} {items : List Node} {line : Nat}
    (h : ∀ n ∈ items, n.Bounded k) : (sequence tag items line).Bounded k := by
  rintro a (_ | ⟨hm, ha⟩)
  exact h _ hm a ha

theorem bounded_mapping {tag : Tag} {entries : List (Node × Node)} {line : Nat}
    (h : ∀ e ∈ entries, e.1.Bounded k ∧ e.2.Bounded k) : (mapping tag entries line).Bounded k := by
  rintro a (_ | ⟨hm, ha⟩)
  obtain ⟨e, he, hm⟩ := List.mem_flatMap.mp hm
  rcases (List.mem_cons.trans (or_congr_right List.mem_singleton)).mp hm with rfl | rfl
  · exact (h e he).1 a ha
  · exact (h e he).2 a ha

theorem bounded_reference {a : Nat} {name : String} {line : Nat} (h : a < k) :
    (reference a name line).Bounded k := by
  rintro _ (_ | ⟨hm, _⟩)
  · exact h
  · cases hm

end Node

namespace Document

/-- Every alias of a document refers to a node, and none to another alias. -/
structure Linked (doc : Document) : Prop where
  root : ∀ a, doc.root.Refers a → (doc.anchored? a).isSome
  anchored : ∀ e ∈ doc.anchors, ∀ a, e.2.Refers a → (doc.anchored? a).isSome
  target : ∀ e ∈ doc.anchors, e.2.isAlias = false

end Document

/-! ## §2. What a reader keeps. -/

namespace Reader

open Yaml.Node (bounded_scalar bounded_sequence bounded_mapping bounded_reference)

/-- The state of a reader in which the given anchors are pending. -/
structure Sound (pending : List Nat) (r : Reader) : Prop where
  numbered : ∀ e ∈ r.names, e.2 < r.names.length
  recorded : ∀ a < r.names.length, a ∈ pending ∨ ∃ e ∈ r.anchors, e.1 = a
  bounded : ∀ e ∈ r.anchors, e.2.Bounded r.names.length
  target : ∀ e ∈ r.anchors, e.2.isAlias = false

/-- A step that starts with at least `k` names leaves the anchors `after` pending, and its value
    has a property that holds from some count of names on. -/
def Keeps {α : Type} (before : List Nat) (k : Nat) (x : Read α) (after : α → List Nat)
    (Q : Nat → α → Prop) : Prop :=
  ∀ r a r', r.Sound before → k ≤ r.names.length → x.run r = .ok (a, r') →
    r'.Sound (after a) ∧ ∃ k', k ≤ k' ∧ k' ≤ r'.names.length ∧ Q k' a

namespace Keeps

variable {α β : Type} {before : List Nat} {k : Nat} {x : Read α} {f : α → Read β}
  {mid : α → List Nat} {after : β → List Nat} {P : Nat → α → Prop} {Q : Nat → β → Prop}

theorem bind (hx : Keeps before k x mid P)
    (hf : ∀ a k', k ≤ k' → P k' a → Keeps (mid a) k' (f a) after Q) :
    Keeps before k (x >>= f) after Q := by
  intro r b r' hr hk h
  rw [StateT.run_bind] at h
  cases hx' : x.run r with
  | error e =>
    rw [hx'] at h
    cases h
  | ok p =>
    rw [hx'] at h
    obtain ⟨hmid, k', hk', hle, hP⟩ := hx r p.1 p.2 hr hk hx'
    obtain ⟨hafter, k'', hk'', hle', hQ⟩ := hf p.1 k' hk' hP p.2 b r' hmid hle h
    exact ⟨hafter, k'', Nat.le_trans hk' hk'', hle', hQ⟩

theorem pure {b : β} (hafter : after b = before) (hQ : Q k b) :
    Keeps before k (Pure.pure b) after Q := by
  rintro r _ _ hr hk ⟨⟩
  exact ⟨hafter ▸ hr, k, Nat.le_refl k, hk, hQ⟩

theorem throw {e : SyntaxError} : Keeps before k (throw e) after Q := by
  rintro r b r' - - ⟨⟩

theorem ite {c : Prop} [Decidable c] {x y : Read α} {after : α → List Nat} {Q : Nat → α → Prop}
    (hx : Keeps before k x after Q) (hy : Keeps before k y after Q) :
    Keeps before k (if c then x else y) after Q := by
  split
  · exact hx
  · exact hy

end Keeps

/-! ## §3. Steps. -/

section

variable {pending : List Nat} {k : Nat}

theorem keeps_get : Keeps pending k get (fun _ => pending) fun k' r =>
    r.Sound pending ∧ k' = r.names.length := by
  rintro r _ _ hr hk ⟨⟩
  exact ⟨hr, _, hk, Nat.le_refl _, hr, rfl⟩

theorem keeps_set {before : List Nat} {s : Reader} (hs : s.Sound pending)
    (hk : k ≤ s.names.length) :
    Keeps before k (set s) (fun _ => pending) fun _ _ => True := by
  rintro r _ _ - - ⟨⟩
  exact ⟨hs, k, Nat.le_refl k, hk, trivial⟩

theorem keeps_lift {α : Type} {x : Except SyntaxError α} :
    Keeps pending k (liftM x : Read α) (fun _ => pending) fun k' _ => k' = k := by
  intro r a r' hr hk h
  cases x with
  | error e => cases h
  | ok a =>
    cases h
    exact ⟨hr, k, Nat.le_refl k, hk, rfl⟩

/-- What a reader has got to know stays when it goes on in the text. -/
theorem Sound.scanner {r : Reader} (h : r.Sound pending) (scanner : Scanner) :
    Sound pending { r with scanner } := ⟨h.numbered, h.recorded, h.bounded, h.target⟩

theorem keeps_peek : Keeps pending k peek (fun _ => pending) fun _ _ => True := by
  refine .bind keeps_get fun r _ _ ⟨hr, hk⟩ => .bind keeps_lift fun p _ _ heq => ?_
  exact .bind (keeps_set (hr.scanner p.2) (heq ▸ Nat.le_of_eq hk)) fun _ _ _ _ => .pure rfl trivial

theorem keeps_skip : Keeps pending k skip (fun _ => pending) fun _ _ => True := by
  refine .bind keeps_get fun r _ _ ⟨hr, hk⟩ => .bind keeps_lift fun p _ _ heq => ?_
  exact keeps_set (hr.scanner p.2) (heq ▸ Nat.le_of_eq hk)

theorem keeps_next : Keeps pending k next (fun _ => pending) fun _ _ => True :=
  .bind keeps_skip fun _ _ _ _ => keeps_peek

/-- A new anchor is pending. -/
theorem Sound.register {r : Reader} (h : r.Sound pending) (name : String) :
    Sound (r.names.length :: pending) { r with names := (name, r.names.length) :: r.names } := by
  refine ⟨?_, ?_, ?_, h.target⟩
  · simp only [List.length_cons, List.forall_mem_cons]
    exact ⟨Nat.lt_succ_self _, fun e he => Nat.lt_succ_of_lt (h.numbered e he)⟩
  · intro a ha
    rcases Nat.lt_succ_iff_lt_or_eq.mp ha with ha | rfl
    · exact (h.recorded a ha).imp_left (List.mem_cons_of_mem _)
    · exact .inl List.mem_cons_self
  · exact fun e he => (h.bounded e he).mono (Nat.le_succ _)

theorem keeps_register {name : String} :
    Keeps pending k (register name) (fun a => a :: pending) fun _ _ => True := by
  refine .bind keeps_get fun r _ _ ⟨hr, hk⟩ => ?_
  exact .bind (keeps_set (hr.register name) (Nat.le_succ_of_le (Nat.le_of_eq hk))) fun _ _ _ _ =>
    .pure rfl trivial

theorem keeps_fullTag {name : TagName} {place : Mark} :
    Keeps pending k (fullTag name place) (fun _ => pending) fun _ _ => True := by
  unfold fullTag
  split
  · exact .pure rfl trivial
  · refine .bind keeps_get fun r _ _ _ => ?_
    dsimp only
    split
    · exact .pure rfl trivial
    · exact .throw

theorem keeps_properties {t : Token} :
    Keeps pending k (properties t) (fun p => p.1.anchor.toList ++ pending) fun _ _ => True := by
  unfold properties
  split
  · refine .bind keeps_register fun a _ _ _ => .bind keeps_next fun t _ _ _ => ?_
    split
    · exact .bind keeps_fullTag fun _ _ _ _ => .bind keeps_next fun _ _ _ _ => .pure rfl trivial
    · exact .pure rfl trivial
  · refine .bind keeps_fullTag fun a _ _ _ => .bind keeps_next fun t _ _ _ => ?_
    split
    · exact .bind keeps_register fun _ _ _ _ => .bind keeps_next fun _ _ _ _ => .pure rfl trivial
    · exact .pure rfl trivial
  · exact .pure rfl trivial

/-- An anchor whose node has been read is not pending any more. -/
theorem Sound.record {r : Reader} {a : Nat} {n : Node} (h : r.Sound (a :: pending))
    (hn : n.Bounded r.names.length) (halias : n.isAlias = false) :
    Sound pending { r with anchors := (a, n) :: r.anchors } := by
  refine ⟨h.numbered, fun b hb => ?_, List.forall_mem_cons.mpr ⟨hn, h.bounded⟩,
    List.forall_mem_cons.mpr ⟨halias, h.target⟩⟩
  rcases h.recorded b hb with hpending | ⟨e, he, heq⟩
  · rcases List.mem_cons.mp hpending with rfl | hpending
    · exact .inr ⟨_, List.mem_cons_self, rfl⟩
    · exact .inl hpending
  · exact .inr ⟨e, List.mem_cons_of_mem _ he, heq⟩

theorem keeps_record {anchor : Option Nat} {n : Node} (hn : n.Bounded k)
    (halias : n.isAlias = false) :
    Keeps (anchor.toList ++ pending) k (record anchor n) (fun _ => pending)
      fun k' n => n.Bounded k' := by
  cases anchor with
  | none => exact .pure rfl hn
  | some a =>
    rintro r _ _ hr hk ⟨⟩
    exact ⟨hr.record (hn.mono hk) halias, k, Nat.le_refl k, hk, hn⟩

end

/-! ## §4. Readers. -/

section

variable {pending : List Nat} {k : Nat}

/-- A reader of nodes leaves nothing pending, and refers to anchors that it has seen. -/
def Settles {α : Type} (x : Read α) (Q : Nat → α → Prop) : Prop :=
  ∀ pending k, Keeps pending k x (fun _ => pending) Q

/-- What is proved of all readers together. -/
structure Settled (fuel : Nat) : Prop where
  node : ∀ block indentless, Settles (node fuel block indentless) fun k n => n.Bounded k
  blockItems : Settles (blockItems fuel) fun k ns => ∀ n ∈ ns, n.Bounded k
  indentlessItems : Settles (indentlessItems fuel) fun k ns => ∀ n ∈ ns, n.Bounded k
  blockEntries : Settles (blockEntries fuel) fun k es => ∀ e ∈ es, e.1.Bounded k ∧ e.2.Bounded k
  flowItems : ∀ first, Settles (flowItems fuel first) fun k ns => ∀ n ∈ ns, n.Bounded k
  flowPair : Settles (flowPair fuel) fun k e => e.1.Bounded k ∧ e.2.Bounded k
  flowEntries : ∀ first,
    Settles (flowEntries fuel first) fun k es => ∀ e ∈ es, e.1.Bounded k ∧ e.2.Bounded k

variable {fuel : Nat}

section

variable {β : Type} {pending : List Nat} {k : Nat} {after : β → List Nat} {Q : Nat → β → Prop}
  {f : Node → Read β} {block indentless : Bool} {mark : Mark}

/-- Goes on behind a node that may be left out. -/
theorem Settled.nodeOrEmpty (ih : Settled fuel) {c : Prop} [Decidable c]
    (hf : ∀ n k', k ≤ k' → n.Bounded k' → Keeps pending k' (f n) after Q) :
    Keeps pending k (if c then do f (← pure (emptyNode mark))
      else do f (← Reader.node fuel block indentless)) after Q := by
  split
  · exact .bind (.pure rfl bounded_scalar) hf
  · exact .bind (ih.node _ _ _ _) hf

/-- Goes on behind a key that may be left out, with a token in its place. -/
theorem Settled.nodeOrSkip (ih : Settled fuel) {c : Prop} [Decidable c]
    (hf : ∀ n k', k ≤ k' → n.Bounded k' → Keeps pending k' (f n) after Q) :
    Keeps pending k (if c then do skip; f (← pure (emptyNode mark))
      else do f (← Reader.node fuel block indentless)) after Q := by
  split
  · exact .bind keeps_skip fun _ _ hk _ => .bind (.pure rfl bounded_scalar) fun n k' hk' =>
      hf n k' (Nat.le_trans hk hk')
  · exact .bind (ih.node _ _ _ _) hf

/-- Goes on behind the value of an entry, which may be left out with the sign in front of it. -/
theorem Settled.valueOrEmpty (ih : Settled fuel) {c : Prop} [Decidable c] {d : Token → Prop}
    [DecidablePred d] {place : Token → Mark}
    (hf : ∀ n k', k ≤ k' → n.Bounded k' → Keeps pending k' (f n) after Q) :
    Keeps pending k (if c then do
        let after ← next
        if d after then f (← pure (emptyNode (place after)))
        else f (← Reader.node fuel block indentless)
      else do f (← pure (emptyNode mark))) after Q := by
  split
  · exact .bind keeps_next fun _ _ hk _ =>
      ih.nodeOrEmpty fun n k' hk' => hf n k' (Nat.le_trans hk hk')
  · exact .bind (.pure rfl bounded_scalar) hf

end

theorem keeps_node (ih : Settled fuel) {block indentless : Bool} :
    Settles (Reader.node (fuel + 1) block indentless) fun k n => n.Bounded k := by
  intro pending k
  rw [Reader.node]
  refine .bind keeps_peek fun first k _ _ => ?_
  dsimp only
  split
  · refine .bind keeps_get fun r k _ hr => ?_
    split
    · next number hfind =>
      obtain ⟨hr, rfl⟩ := hr
      have hnumber := hr.numbered _ (List.mem_of_find?_eq_some hfind)
      exact .bind keeps_skip fun _ k' hk _ =>
        .pure rfl (bounded_reference (Nat.lt_of_lt_of_le hnumber hk))
    · exact .throw
  · refine .bind keeps_properties fun ⟨p, t⟩ k _ _ => ?_
    dsimp only
    split
    -- a scalar, and the two collections with brackets
    · exact .bind keeps_skip fun _ _ _ _ => keeps_record bounded_scalar rfl
    · exact .bind keeps_skip fun _ _ _ _ => .bind (ih.flowItems _ _ _) fun _ _ _ h =>
        keeps_record (bounded_sequence h) rfl
    · exact .bind keeps_skip fun _ _ _ _ => .bind (ih.flowEntries _ _ _) fun _ _ _ h =>
        keeps_record (bounded_mapping h) rfl
    -- what starts with an indentation, or with nothing
    · split
      · exact .bind (ih.indentlessItems _ _) fun _ _ _ h => keeps_record (bounded_sequence h) rfl
      · split
        · exact .bind keeps_skip fun _ _ _ _ => .bind (ih.blockItems _ _) fun _ _ _ h =>
            keeps_record (bounded_sequence h) rfl
        · split
          · exact .bind keeps_skip fun _ _ _ _ => .bind (ih.blockEntries _ _) fun _ _ _ h =>
              keeps_record (bounded_mapping h) rfl
          · split
            · exact keeps_record bounded_scalar rfl
            · exact .throw

theorem keeps_blockItems (ih : Settled fuel) :
    Settles (blockItems (fuel + 1)) fun k ns => ∀ n ∈ ns, n.Bounded k := by
  intro pending k
  rw [blockItems]
  refine .bind keeps_peek fun t k _ _ => ?_
  dsimp only
  split
  · refine .bind keeps_next fun _ _ _ _ => ih.nodeOrEmpty fun item _ _ hitem => ?_
    exact .bind (ih.blockItems _ _) fun _ _ hk h =>
      .pure rfl (List.forall_mem_cons.mpr ⟨hitem.mono hk, h⟩)
  · exact .bind keeps_skip fun _ _ _ _ => .pure rfl (List.forall_mem_nil _)
  · exact .throw

theorem keeps_indentlessItems (ih : Settled fuel) :
    Settles (indentlessItems (fuel + 1)) fun k ns => ∀ n ∈ ns, n.Bounded k := by
  intro pending k
  rw [indentlessItems]
  refine .bind keeps_peek fun t k _ _ => ?_
  dsimp only
  split
  · refine .bind keeps_next fun _ _ _ _ => ih.nodeOrEmpty fun item _ _ hitem => ?_
    exact .bind (ih.indentlessItems _ _) fun _ _ hk h =>
      .pure rfl (List.forall_mem_cons.mpr ⟨hitem.mono hk, h⟩)
  · exact .pure rfl (List.forall_mem_nil _)

theorem keeps_blockEntries (ih : Settled fuel) :
    Settles (blockEntries (fuel + 1)) fun k es =>
      ∀ e ∈ es, e.1.Bounded k ∧ e.2.Bounded k := by
  intro pending k
  rw [blockEntries]
  refine .bind keeps_peek fun t k _ _ => ?_
  dsimp only
  split
  · refine .bind keeps_next fun _ _ _ _ => ih.nodeOrEmpty fun key k₁ _ hkey => ?_
    refine .bind keeps_peek fun v k₂ hk₂ _ => ih.valueOrEmpty fun value k₃ hk₃ hvalue => ?_
    refine .bind (ih.blockEntries _ _) fun _ k₄ hk₄ h => .pure rfl ?_
    refine List.forall_mem_cons.mpr ⟨⟨hkey.mono (by omega), hvalue.mono hk₄⟩, h⟩
  · exact .bind keeps_skip fun _ _ _ _ => .pure rfl (List.forall_mem_nil _)
  · exact .throw

/-- Goes on at the next item of a collection in brackets, behind a comma if one is due. -/
theorem keeps_comma {β : Type} {pending : List Nat} {k : Nat} {after : β → List Nat}
    {Q : Nat → β → Prop} {f : Token → Read β} {first comma : Prop} [Decidable first]
    [Decidable comma] {t : Token} {e : SyntaxError}
    (hf : ∀ t k', k ≤ k' → Keeps pending k' (f t) after Q) :
    Keeps pending k (if first then do f (← pure t)
      else if comma then do f (← next) else do f (← throw e)) after Q := by
  split
  · exact .bind (.pure rfl trivial) fun t k' hk' (_ : True) => hf t k' hk'
  · split
    · exact .bind keeps_next fun t k' hk' _ => hf t k' hk'
    · have hthrow : Keeps pending k (throw e : Read Token) (fun _ => pending) fun _ _ => True :=
        .throw
      exact .bind hthrow fun t k' hk' _ => hf t k' hk'

theorem keeps_flowItems (ih : Settled fuel) {first : Bool} :
    Settles (flowItems (fuel + 1) first) fun k ns => ∀ n ∈ ns, n.Bounded k := by
  intro pending k
  rw [flowItems]
  refine .bind keeps_peek fun t k _ _ => .ite ?_ ?_
  · exact .bind keeps_skip fun _ _ _ _ => .pure rfl (List.forall_mem_nil _)
  · refine keeps_comma fun t k _ => .ite ?_ (.ite ?_ ?_)
    · exact .bind keeps_skip fun _ _ _ _ => .pure rfl (List.forall_mem_nil _)
    · refine .bind (ih.flowPair _ _) fun e _ _ he => .bind (ih.flowItems _ _ _) fun _ _ hk h => ?_
      have he' : e.1.Bounded _ ∧ e.2.Bounded _ := ⟨he.1.mono hk, he.2.mono hk⟩
      exact .pure rfl (List.forall_mem_cons.mpr
        ⟨bounded_mapping (List.forall_mem_singleton.mpr he'), h⟩)
    · refine .bind (ih.node _ _ _ _) fun item _ _ hitem => ?_
      exact .bind (ih.flowItems _ _ _) fun _ _ hk h =>
        .pure rfl (List.forall_mem_cons.mpr ⟨hitem.mono hk, h⟩)

theorem keeps_flowPair (ih : Settled fuel) :
    Settles (flowPair (fuel + 1)) fun k e => e.1.Bounded k ∧ e.2.Bounded k := by
  intro pending k
  rw [flowPair]
  refine .bind keeps_next fun t k _ _ => ih.nodeOrSkip fun key k₁ _ hkey => ?_
  refine .bind keeps_peek fun v k₂ hk₂ _ => ih.valueOrEmpty fun value k₃ hk₃ hvalue => ?_
  exact .pure rfl ⟨hkey.mono (Nat.le_trans hk₂ hk₃), hvalue⟩

theorem keeps_flowEntries (ih : Settled fuel) {first : Bool} :
    Settles (flowEntries (fuel + 1) first) fun k es =>
      ∀ e ∈ es, e.1.Bounded k ∧ e.2.Bounded k := by
  intro pending k
  rw [flowEntries]
  refine .bind keeps_peek fun t k _ _ => .ite ?_ ?_
  · exact .bind keeps_skip fun _ _ _ _ => .pure rfl (List.forall_mem_nil _)
  · refine keeps_comma fun t k _ => .ite ?_ (.ite ?_ ?_)
    · exact .bind keeps_skip fun _ _ _ _ => .pure rfl (List.forall_mem_nil _)
    · refine .bind keeps_next fun _ _ _ _ => ih.nodeOrEmpty fun key k₁ _ hkey => ?_
      refine .bind keeps_peek fun v k₂ hk₂ _ => ih.valueOrEmpty fun value k₃ hk₃ hvalue => ?_
      refine .bind (ih.flowEntries _ _ _) fun _ k₄ hk₄ h => .pure rfl ?_
      exact List.forall_mem_cons.mpr ⟨⟨hkey.mono (by omega), hvalue.mono hk₄⟩, h⟩
    · refine .bind (ih.node _ _ _ _) fun key k₁ _ hkey => .bind keeps_peek fun v k₂ hk₂ _ => ?_
      refine .bind (ih.flowEntries _ _ _) fun _ k₃ hk₃ h => .pure rfl ?_
      exact List.forall_mem_cons.mpr ⟨⟨hkey.mono (by omega), bounded_scalar⟩, h⟩

theorem settled (fuel : Nat) : Settled fuel := by
  induction fuel with
  | zero =>
    exact ⟨fun _ _ _ _ => .throw, fun _ _ => .throw, fun _ _ => .throw, fun _ _ => .throw,
      fun _ _ _ => .throw, fun _ _ => .throw, fun _ _ _ => .throw⟩
  | succ fuel ih =>
    exact ⟨fun _ _ => keeps_node ih, keeps_blockItems ih, keeps_indentlessItems ih,
      keeps_blockEntries ih, fun _ => keeps_flowItems ih, keeps_flowPair ih,
      fun _ => keeps_flowEntries ih⟩

end

/-! ## §5. Documents. -/

variable {pending : List Nat} {k fuel : Nat}

theorem keeps_handle {handle stem : String} :
    Keeps pending k (modify fun r => { r with handles := r.handles ++ [(handle, stem)] })
      (fun _ => pending) fun _ _ => True := by
  rintro r _ _ hr hk ⟨⟩
  exact ⟨⟨hr.numbered, hr.recorded, hr.bounded, hr.target⟩, k, Nat.le_refl k, hk, trivial⟩

theorem keeps_directives {versioned : Bool} :
    Keeps pending k (directives fuel versioned) (fun _ => pending) fun _ _ => True := by
  induction fuel generalizing k versioned with
  | zero => exact .throw
  | succ fuel ih =>
    rw [directives]
    refine .bind keeps_peek fun t _ _ _ => ?_
    split
    · split
      · exact .throw
      · exact .bind keeps_skip fun _ _ _ _ => ih
    · refine .bind keeps_get fun r k _ ⟨hr, hk⟩ => ?_
      split
      · exact .throw
      · exact .bind keeps_handle fun _ _ _ _ => .bind keeps_skip fun _ _ _ _ => ih
    · exact .pure rfl trivial

/-- With no anchor pending, all aliases refer to nodes. -/
theorem Sound.linked {r : Reader} {root : Node} (h : r.Sound [])
    (hroot : root.Bounded r.names.length) : Document.Linked { root, anchors := r.anchors } := by
  have hanchored : ∀ a < r.names.length,
      (Document.anchored? { root, anchors := r.anchors } a).isSome := by
    intro a ha
    obtain hpending | ⟨e, he, rfl⟩ := h.recorded a ha
    · cases hpending
    · simpa [Document.anchored?] using ⟨e.2, he⟩
  exact ⟨fun a ha => hanchored a (hroot a ha),
    fun e he a ha => hanchored a (h.bounded e he a ha), h.target⟩

theorem keeps_finish {root : Node} (hroot : root.Bounded k) :
    Keeps [] k (document.finish root) (fun _ => []) fun _ d => ∀ doc ∈ d, doc.Linked := by
  refine .bind keeps_peek fun _ _ hk _ => .bind keeps_get fun r _ hk' ⟨hr, heq⟩ => .pure rfl ?_
  rintro _ ⟨⟩
  exact hr.linked (hroot.mono (by omega))

theorem keeps_document :
    Keeps [] k (document fuel) (fun _ => []) fun _ d => ∀ doc ∈ d, doc.Linked := by
  unfold document
  refine .bind keeps_peek fun t _ _ _ => ?_
  split
  · exact .pure rfl fun _ h => absurd h (Option.not_mem_none _)
  -- a document with directives, or at least with a mark in front
  iterate 2
    refine .bind keeps_directives fun _ _ _ _ => .bind keeps_peek fun t _ _ _ => ?_
    split
    · exact .throw
    · refine .bind keeps_next fun t _ _ _ => ?_
      dsimp only
      split
      · exact .bind (.pure rfl bounded_scalar) fun _ _ _ hroot => keeps_finish hroot
      · exact .bind ((settled fuel).node _ _ _ _) fun _ _ _ hroot => keeps_finish hroot
  · exact .bind ((settled fuel).node _ _ _ _) fun _ _ _ hroot => keeps_finish hroot

end Reader

/-- In what is read from a text, every alias refers to a node, which is not an alias itself. -/
theorem Document.linked_of_parse {bytes : Bytes} {doc : Document}
    (h : Document.parse bytes = .ok (some doc)) : doc.Linked := by
  unfold Document.parse at h
  dsimp only at h
  cases hrun : (Reader.document (4 * (Input.ofBytes bytes).chars.length + 16)).run
      { scanner := .ofInput (Input.ofBytes bytes) } with
  | error e =>
    rw [hrun] at h
    cases h
  | ok p =>
    rw [hrun] at h
    obtain ⟨d, r⟩ := p
    cases h
    have hstart : Reader.Sound [] { scanner := .ofInput (Input.ofBytes bytes) } :=
      ⟨List.forall_mem_nil _, fun a ha => absurd ha (Nat.not_lt_zero a), List.forall_mem_nil _,
        List.forall_mem_nil _⟩
    obtain ⟨-, _, -, -, hlinked⟩ := Reader.keeps_document _ _ r hstart (Nat.zero_le _) hrun
    exact hlinked doc rfl

end Resumable.Yaml
