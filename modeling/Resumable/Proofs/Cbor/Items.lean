/-
  Resumable.Proofs.Cbor.Items — an item is read back from its bytes.

  Texts, flags, null, lists and maps are written with definite lengths, so the reader knows from
  each head how much belongs to it.  A map is read back with its entries in the order in which they
  are written.  The reader has limits of its own: how deep lists and maps are nested, and how many
  elements they have.

  Main statement: `Item.Within.kept`.
-/
import Resumable.Proofs.Text.Utf8

namespace Resumable.Cbor

namespace Item

/-! ## §1. Written order. -/

mutual

/-- An item with the entries of its maps in the order in which they are written. -/
def sorted : Item → Item
  | array items => array (sortedAll items)
  | map entries =>
      map (((sortedEntries entries).mergeSort (fun a b => keyBefore a.1 b.1)).map (·.2))
  | tagged tag item => tagged tag (sorted item)
  | i => i

/-- Items with the entries of their maps in written order. -/
def sortedAll : List Item → List Item
  | [] => []
  | i :: rest => sorted i :: sortedAll rest

/-- Entries with the bytes of their keys, and with the entries of maps inside in written order. -/
def sortedEntries : List (Item × Item) → List (Bytes × Item × Item)
  | [] => []
  | (k, v) :: rest => (encode k, sorted k, sorted v) :: sortedEntries rest

end

theorem sortedAll_eq (is : List Item) : sortedAll is = is.map sorted := by
  induction is with
  | nil => rw [sortedAll, List.map_nil]
  | cons i is ih => rw [sortedAll, ih, List.map_cons]

theorem sortedEntries_eq (es : List (Item × Item)) :
    sortedEntries es = es.map (fun e => (e.1.encode, e.1.sorted, e.2.sorted)) := by
  induction es with
  | nil => rw [sortedEntries, List.map_nil]
  | cons e es ih => rw [sortedEntries, ih, List.map_cons]

theorem encodeEntries_eq (es : List (Item × Item)) :
    encodeEntries es = es.map (fun e => (e.1.encode, e.2.encode)) := by
  induction es with
  | nil => rw [encodeEntries, List.map_nil]
  | cons e es ih => rw [encodeEntries, ih, List.map_cons]

/-- Entries in written order. -/
def inOrder (es : List (Item × Item)) : List (Item × Item) :=
  es.mergeSort (fun a b => keyBefore a.1.encode b.1.encode)

theorem mem_inOrder {e : Item × Item} {es : List (Item × Item)} : e ∈ inOrder es ↔ e ∈ es :=
  List.mem_mergeSort

theorem length_inOrder (es : List (Item × Item)) : (inOrder es).length = es.length :=
  List.length_mergeSort es

/-- A map is written as its entries in order. -/
theorem encode_map (es : List (Item × Item)) :
    (map es).encode =
      head 5 es.length ++ (inOrder es).flatMap (fun e => e.1.encode ++ e.2.encode) := by
  rw [encode, encodeEntries_eq, inOrder,
    ← List.map_mergeSort (r := fun a b => keyBefore a.1.encode b.1.encode)
    (fun _ _ _ _ => rfl), List.flatMap_map]

theorem sorted_map (es : List (Item × Item)) :
    (map es).sorted = map ((inOrder es).map (fun e => (e.1.sorted, e.2.sorted))) := by
  rw [sorted, sortedEntries_eq, inOrder,
    ← List.map_mergeSort (r := fun a b => keyBefore a.1.encode b.1.encode)
      (fun _ _ _ _ => rfl), List.map_map]
  rfl

/-! ## §2. Limits. -/

/-- A text, flag, null, list or map within the limits of a reader, with at most so many lists and
    maps around any part of it. -/
inductive Within : Nat → Item → Prop
  | text {levels : Nat} (s : String) (short : (Text.bytesOf s).length < 2 ^ 64) :
      Within levels (text (some s))
  | bool {levels : Nat} (b : Bool) : Within levels (bool b)
  | null {levels : Nat} : Within levels null
  | array {levels : Nat} {items : List Item} (short : items.length ≤ longest)
      (h : ∀ i ∈ items, Within levels i) : Within (levels + 1) (array items)
  | map {levels : Nat} {entries : List (Item × Item)} (short : entries.length ≤ longest)
      (keys : ∀ e ∈ entries, Within levels e.1) (values : ∀ e ∈ entries, Within levels e.2) :
      Within (levels + 1) (map entries)

theorem Within.length_pos {levels : Nat} {i : Item} (h : i.Within levels) :
    0 < i.encode.length := by
  cases h with
  | text s _ => exact length_text_pos s
  | bool b => cases b <;> exact Nat.succ_pos _
  | null => exact Nat.succ_pos _
  | array _ _ =>
    rw [encode, List.length_append]
    exact Nat.add_pos_left (length_head_pos _ _) _
  | map _ _ _ =>
    rw [encode_map, List.length_append]
    exact Nat.add_pos_left (length_head_pos _ _) _

end Item

open Item (Within)

/-! ## §3. Reading. -/

section

variable {levels fuel depth : Nat} {tagged : Bool}

/-- An item is read back wherever it stands, as long as there are levels left for it. -/
def Reads (levels : Nat) (i : Item) : Prop :=
  ∀ {fuel depth : Nat} {tagged : Bool} (rest : Bytes), depth + levels ≤ deepest →
    2 * i.encode.length ≤ fuel → item? fuel depth tagged (i.encode ++ rest) = some (i.sorted, rest)

/-- Items are read one after the other. -/
theorem items?_encodeAll (is : List Item) (rest : Bytes) (read : List Item)
    (hd : depth + levels ≤ deepest) (hw : ∀ i ∈ is, i.Within levels)
    (hr : ∀ i ∈ is, Reads levels i) (hf : 2 * (Item.encodeAll is).length < fuel) :
    items? fuel depth is.length (Item.encodeAll is ++ rest) read =
      some (read.reverse ++ is.map Item.sorted, rest) := by
  induction is generalizing fuel read with
  | nil =>
    obtain ⟨fuel, rfl⟩ : ∃ m, fuel = m + 1 := ⟨fuel - 1, by omega⟩
    rw [List.length_nil, items?, List.map_nil, List.append_nil, Item.encodeAll, List.nil_append]
    exact fun h => absurd h (Nat.succ_ne_zero fuel)
  | cons i is ih =>
    obtain ⟨fuel, rfl⟩ : ∃ m, fuel = m + 1 := ⟨fuel - 1, by omega⟩
    obtain ⟨hwi, hwis⟩ := List.forall_mem_cons.mp hw
    obtain ⟨hri, hris⟩ := List.forall_mem_cons.mp hr
    have hpos := hwi.length_pos
    rw [Item.encodeAll, List.length_append] at hf
    have hitem : item? fuel depth false (i.encode ++ _) = some (i.sorted, _) :=
      hri (Item.encodeAll is ++ rest) hd (by omega)
    rw [List.length_cons, Item.encodeAll, List.append_assoc, items?, hitem]
    dsimp only
    rw [ih (i.sorted :: read) hwis hris (by omega), List.reverse_cons, List.append_assoc]
    rfl

/-- A head is read, and what it says tells how to go on. -/
theorem item?_head {major n : Nat} (rest : Bytes) (hm : major < 7) (hn : n < 2 ^ 64) :
    ∃ h : Head, h.major = major ∧ h.value = n ∧ h.isIndefinite = false ∧
      Head.parse? (head major n ++ rest) = some (h, rest) := by
  obtain ⟨low, hlow, hread⟩ := Head.parse?_head rest hm hn
  refine ⟨_, rfl, rfl, ?_, hread⟩
  exact beq_eq_false_iff_ne.mpr (show low ≠ 31 by omega)

/-- An item of one byte. -/
theorem Reads.constant {i : Item} {b : UInt8} {h : Head} (hbytes : i.encode = [b])
    (hsorted : i.sorted = h.special) (hmajor : h.major = 7)
    (hparse : ∀ rest, Head.parse? (b :: rest) = some (h, rest)) : Reads levels i := by
  intro fuel depth tagged rest hd hf
  rw [hbytes, List.length_singleton] at hf
  obtain ⟨fuel, rfl⟩ : ∃ m, fuel = m + 1 := ⟨fuel - 1, by omega⟩
  rw [hbytes, List.singleton_append, item?, hparse]
  simp [hmajor, hsorted]

theorem Reads.text {s : String} (short : (Text.bytesOf s).length < 2 ^ 64) :
    Reads levels (.text (some s)) := by
  intro fuel depth tagged rest hd hf
  have hpos := Item.length_text_pos s
  have hbytes : (Item.text (some s)).encode =
      head 3 (Text.bytesOf s).length ++ Text.bytesOf s := Item.encode_ofText s
  obtain ⟨fuel, rfl⟩ : ∃ m, fuel = m + 1 := ⟨fuel - 1, by
    rw [hbytes, List.length_append] at hf
    have := length_head_pos 3 (Text.bytesOf s).length
    omega⟩
  obtain ⟨h, hmajor, hvalue, hdefinite, hhead⟩ :=
    item?_head (Text.bytesOf s ++ rest) (show 3 < 7 by omega) short
  rw [hbytes, List.append_assoc, item?, hhead]
  simp [hmajor, hvalue, hdefinite, takeBytes?_append rest rfl, ofChunks, textOfChunks,
    Text.textOf?_bytesOf, Item.sorted]

theorem Reads.array {items : List Item} (short : items.length ≤ longest)
    (hw : ∀ i ∈ items, i.Within levels) (hr : ∀ i ∈ items, Reads levels i) :
    Reads (levels + 1) (.array items) := by
  intro fuel depth tagged rest hd hf
  have hhead := length_head_pos 4 items.length
  rw [Item.encode, List.length_append] at hf
  obtain ⟨fuel, rfl⟩ : ∃ m, fuel = m + 1 := ⟨fuel - 1, by omega⟩
  have few : items.length < 2 ^ 64 := Nat.lt_of_le_of_lt short (by decide)
  obtain ⟨h, hmajor, hvalue, hdefinite, hparse⟩ :=
    item?_head (Item.encodeAll items ++ rest) (show 4 < 7 by omega) few
  have hitems : items? fuel (depth + 1) items.length (Item.encodeAll items ++ rest) [] =
      some (items.map Item.sorted, rest) :=
    items?_encodeAll items rest [] (by omega) hw hr (by omega)
  have room : depth < deepest := by omega
  rw [Item.encode, List.append_assoc, item?, hparse]
  simp [hmajor, hvalue, hdefinite, hitems, collection?, Item.sorted, Item.sortedAll_eq, room, short]

/-- Keys and values one after the other. -/
def alternating (es : List (Item × Item)) : List Item := es.flatMap (fun e => [e.1, e.2])

theorem length_alternating (es : List (Item × Item)) :
    (alternating es).length = 2 * es.length := by
  induction es with
  | nil => rfl
  | cons e es ih =>
    have hcons : alternating (e :: es) = e.1 :: e.2 :: alternating es := rfl
    rw [hcons, List.length_cons, List.length_cons, ih, List.length_cons]
    omega

theorem encodeAll_alternating (es : List (Item × Item)) :
    Item.encodeAll (alternating es) = es.flatMap (fun e => e.1.encode ++ e.2.encode) := by
  induction es with
  | nil => rfl
  | cons e es ih =>
    have hcons : alternating (e :: es) = e.1 :: e.2 :: alternating es := rfl
    rw [hcons, Item.encodeAll, Item.encodeAll, ih, List.flatMap_cons, List.append_assoc]

theorem pairs?_alternating (es : List (Item × Item)) :
    pairs? ((alternating es).map Item.sorted) =
      some (es.map (fun e => (e.1.sorted, e.2.sorted))) := by
  induction es with
  | nil => rfl
  | cons e es ih =>
    have hcons : alternating (e :: es) = e.1 :: e.2 :: alternating es := rfl
    rw [hcons, List.map_cons, List.map_cons, pairs?, ih, Option.map_some, List.map_cons]

theorem forall_mem_alternating {P : Item → Prop} {es : List (Item × Item)}
    (hk : ∀ e ∈ es, P e.1) (hv : ∀ e ∈ es, P e.2) : ∀ i ∈ alternating es, P i := by
  intro i hi
  obtain ⟨e, he, hi⟩ := List.mem_flatMap.mp hi
  rcases List.mem_cons.mp hi with rfl | hi
  · exact hk e he
  · rw [List.mem_singleton.mp hi]
    exact hv e he

theorem Reads.map {entries : List (Item × Item)} (short : entries.length ≤ longest)
    (hkw : ∀ e ∈ entries, e.1.Within levels) (hvw : ∀ e ∈ entries, e.2.Within levels)
    (hk : ∀ e ∈ entries, Reads levels e.1) (hv : ∀ e ∈ entries, Reads levels e.2) :
    Reads (levels + 1) (.map entries) := by
  intro fuel depth tagged rest hd hf
  have hhead := length_head_pos 5 entries.length
  have hbytes : (Item.map entries).encode = head 5 entries.length ++
      Item.encodeAll (alternating (Item.inOrder entries)) := by
    rw [Item.encode_map, encodeAll_alternating]
  have hcount : (alternating (Item.inOrder entries)).length = 2 * entries.length := by
    rw [length_alternating, Item.length_inOrder]
  -- the entries are read in the order in which they are written
  have hmem : ∀ e ∈ Item.inOrder entries, e ∈ entries := fun e he => Item.mem_inOrder.mp he
  have hw := forall_mem_alternating (fun e he => hkw e (hmem e he)) (fun e he => hvw e (hmem e he))
  have hr := forall_mem_alternating (P := Reads levels) (fun e he => hk e (hmem e he))
    (fun e he => hv e (hmem e he))
  rw [hbytes, List.length_append] at hf
  obtain ⟨fuel, rfl⟩ : ∃ m, fuel = m + 1 := ⟨fuel - 1, by omega⟩
  have few : entries.length < 2 ^ 64 := Nat.lt_of_le_of_lt short (by decide)
  obtain ⟨h, hmajor, hvalue, hdefinite, hparse⟩ := item?_head
    (Item.encodeAll (alternating (Item.inOrder entries)) ++ rest) (show 5 < 7 by omega) few
  have hitems := items?_encodeAll _ rest [] (show depth + 1 + levels ≤ deepest by omega) hw hr
    (show _ < fuel by omega)
  rw [hcount] at hitems
  have room : depth < deepest := by omega
  rw [hbytes, List.append_assoc, item?, hparse]
  simp [hmajor, hvalue, hdefinite, hitems, collection?, pairs?_alternating, Item.sorted_map,
    Item.length_inOrder, room, short]

end

/-- An item is read back wherever it stands. -/
theorem Item.Within.reads {levels : Nat} {i : Item} (h : i.Within levels) : Reads levels i := by
  induction h with
  | text s short => exact Reads.text short
  | bool b => cases b <;> exact Reads.constant rfl rfl rfl fun _ => rfl
  | null => exact Reads.constant rfl rfl rfl fun _ => rfl
  | array short h ih => exact Reads.array short h ih
  | map short hk hv ihk ihv => exact Reads.map short hk hv ihk ihv

/-- Whether an item is read back from its bytes, maps in written order. -/
def Item.Kept (i : Item) : Prop := parse? i.encode = some i.sorted

/-- An item is read back from its bytes if it is within the limits of the reader. -/
theorem Item.Within.kept {i : Item} (h : i.Within deepest) : i.Kept := by
  have hread : item? (2 * i.encode.length + 3) 0 false _ = _ :=
    h.reads [] (Nat.le_of_eq (Nat.zero_add deepest)) (by omega)
  rw [List.append_nil] at hread
  rw [Item.Kept, parse?, hread]
  rfl

end Resumable.Cbor
