/-
  Resumable.Proofs.Code.CborReading — code is read back from CBOR.

  A record comes back with its fields in the order of their names, the shorter names first.  So a
  reader meets the command of a branch before its lists and that of a leaf after its text.  It reads
  a record twice, first for the command alone, and the order makes no difference: each field takes
  its slot out of those that are free.

  Main statement: `ofCbor_toCbor`.
-/
import Resumable.Code.Cbor
import Resumable.Proofs.Cbor.Items
import Resumable.Proofs.Code.Records

namespace Resumable.Code

open Cbor (Item keyBefore)

/-! ## §1. Written records. -/

/-- Fields in the order in which they are written. -/
def inNameOrder (cs : List (String × Content)) : List (String × Content) :=
  cs.mergeSort (fun a b => keyBefore (Item.ofText a.1).encode (Item.ofText b.1).encode)

theorem inNameOrder_perm (cs : List (String × Content)) : (inNameOrder cs).Perm cs :=
  List.mergeSort_perm cs _

/-- A field as it comes back. -/
def cborEntry (c : String × Content) : Item × Item :=
  (.text (some c.1), (c.2.value cborEncoding).sorted)

/-- A record is written with its fields in order. -/
theorem sorted_encode (o : Op) :
    (o.encode cborEncoding).sorted = .map ((inNameOrder o.contents).map cborEntry) := by
  let entry (c : String × Content) : Item × Item := (.ofText c.1, c.2.value cborEncoding)
  have hrecord : o.encode cborEncoding = .map (o.contents.map entry) := by
    rw [Op.encode_eq]
    show Item.map ((o.contents.map _).map _) = _
    rw [List.map_map]
    rfl
  have horder : Item.inOrder (o.contents.map entry) = (inNameOrder o.contents).map entry :=
    (List.map_mergeSort (f := entry)
      (r := fun a b : String × Content =>
        keyBefore (Item.ofText a.1).encode (Item.ofText b.1).encode)
      (s := fun a b : Item × Item => keyBefore a.1.encode b.1.encode) (fun _ _ _ _ => rfl)).symm
  rw [hrecord, Item.sorted_map, horder, List.map_map]
  rfl

/-! ## §2. The first reading. -/

/-- No other field is taken for the command. -/
theorem cborSlot?_fieldNames :
    ∀ key ∈ Op.fieldNames, cborSlot? [("command", .text)] key = none := by
  decide +kernel

/-- Where no slot is free, nothing is read. -/
theorem cborCommand_full (cs : List (String × Content)) (command : String) :
    cborCommand (cs.map cborEntry) [] command = .ok command := by
  induction cs with
  | nil => rfl
  | cons c cs ih => exact ih

/-- The command is found wherever it stands. -/
theorem cborCommand_mem {cs : List (String × Content)} {s : String} (command : String)
    (hmem : ("command", .text s) ∈ cs)
    (hother : ∀ c ∈ cs, c = ("command", .text s) ∨ c.1 ∈ Op.fieldNames) :
    cborCommand (cs.map cborEntry) [("command", .text)] command = .ok s := by
  induction cs with
  | nil => cases hmem
  | cons c cs ih =>
    obtain ⟨hc, hother⟩ := List.forall_mem_cons.mp hother
    rcases hc with rfl | hc
    -- behind the command no slot is free, and in front of it no key fills one
    · exact cborCommand_full cs s
    · have hne : ("command", .text s) ≠ c := by
        rintro rfl
        exact absurd hc (show "command" ∉ Op.fieldNames by decide)
      have hrest := ih ((List.mem_cons.mp hmem).resolve_left hne) hother
      rw [List.map_cons, cborEntry, cborCommand]
      simp only [cborKey?, Option.map_some, Option.bind_some, cborSlot?_fieldNames c.1 hc]
      exact hrest

/-- The first reading finds the command of an instruction. -/
theorem cborCommand_contents (o : Op) :
    cborCommand ((inNameOrder o.contents).map cborEntry) [("command", .text)] "" =
      .ok o.command := by
  refine cborCommand_mem "" ((inNameOrder_perm _).mem_iff.mpr List.mem_cons_self) fun c hc => ?_
  rcases List.mem_cons.mp ((inNameOrder_perm _).mem_iff.mp hc) with rfl | hc
  · exact .inl rfl
  · exact .inr (Op.mem_fieldNames hc)

/-! ## §3. The second reading. -/

/-- The names of a list are read as they are. -/
theorem mapM_cborText (xs : List String) :
    ((xs.map cborEncoding.text).map Item.sorted).mapM cborText = .ok (xs.map some) := by
  induction xs with
  | nil => rfl
  | cons x xs ih =>
    rw [List.map_cons, List.map_cons, List.mapM_cons, ih]
    rfl

/-- A list of names is read as it is, and so is that there is none. -/
theorem cborTexts_names (xs : Option (List String)) :
    cborTexts ((Content.names xs).value cborEncoding).sorted = .ok xs := by
  cases xs with
  | none => rfl
  | some xs =>
    show cborTexts (Item.array (xs.map cborEncoding.text)).sorted = _
    rw [Item.sorted, Item.sortedAll_eq, cborTexts, untagged?]
    · dsimp only
      rw [mapM_cborText]
      show Except.ok (some ((xs.map some).map (·.getD ""))) = _
      rw [List.map_map]
      exact congrArg (fun names => Except.ok (some names)) (List.map_id xs)
    · intro t i h
      cases h

/-- A slot stays free while another one is taken. -/
theorem find?_filter_ne {free : List (String × Slot)} {name name' : String} (h : name' ≠ name) :
    (free.filter (fun f => f.1 != name)).find? (fun f => f.1 == name') =
      free.find? (fun f => f.1 == name') := by
  rw [List.find?_filter]
  congr 1
  funext f
  by_cases hf : f.1 = name'
  · simp [hf, h]
  · simp [hf]

/-- The second reading puts every content into the record. -/
theorem cborEntries_contents {cs : List (String × Content)} {free : List (String × Slot)}
    (hfree : ∀ c ∈ cs, free.find? (fun f => f.1 == c.1) = some (c.1, c.2.slot))
    (hnodup : (cs.map (·.1)).Nodup)
    (hcode : ∀ c ∈ cs, ∀ inner, c.2 = .code inner →
      ofCborItem (inner.encode cborEncoding).sorted = .ok inner) (r : Record) :
    cborEntries free (cs.map cborEntry) r = .ok (cs.foldl Record.take r) := by
  induction cs generalizing free r with
  | nil => rw [List.map_nil, cborEntries, List.foldl_nil]
  | cons c cs ih =>
    obtain ⟨hslot, hfree⟩ := List.forall_mem_cons.mp hfree
    obtain ⟨hhere, hcode⟩ := List.forall_mem_cons.mp hcode
    obtain ⟨hfresh, hnodup⟩ := List.nodup_cons.mp hnodup
    -- the slot that is taken here is not one of those that the rest asks for
    have hleft : ∀ c' ∈ cs, (free.filter (fun f => f.1 != c.1)).find? (fun f => f.1 == c'.1) =
        some (c'.1, c'.2.slot) := by
      intro c' hc'
      have hne : c'.1 ≠ c.1 := fun heq => hfresh (List.mem_map.mpr ⟨c', hc', heq⟩)
      rw [find?_filter_ne hne]
      exact hfree c' hc'
    have hrest := fun r => ih hleft hnodup hcode r
    have hfound : cborSlot? free c.1 = some (c.1, c.2.slot) := by
      rw [cborSlot?, hslot]
      rfl
    rw [List.map_cons, cborEntry, cborEntries, List.foldl_cons]
    simp only [cborKey?, Option.map_some, Option.bind_some, hfound]
    obtain ⟨name, s | b | inner | xs⟩ := c
    · exact hrest _
    · exact hrest _
    · have hinner : ofCborItem ((Content.code inner).value cborEncoding).sorted = .ok inner :=
        hhere inner rfl
      rw [hinner]
      exact hrest _
    · have hnames : cborField r name .names ((Content.names xs).value cborEncoding).sorted =
          .ok { r with args := xs } := by
        rw [cborField, cborTexts_names]
        rfl
      dsimp only [Content.slot]
      rw [hnames]
      exact hrest _

/-! ## §4. Instructions. -/

/-- Whether a code is read back from its item, maps in written order. -/
def CborReads (code : Code) : Prop := ofCborItem (code.encode cborEncoding).sorted = .ok code

/-- An instruction is read back if the code inside it is. -/
theorem cborItem_encode (k : Nat) {o : Op} (h : o.isProper = true) (hinside : o.Inside CborReads) :
    cborItem k (o.encode cborEncoding).sorted = .ok o := by
  have hperm := inNameOrder_perm o.contents
  have hfields := cborEntries_contents
    (fun c hc => Op.find?_slots h c (hperm.mem_iff.mp hc))
    ((hperm.map _).nodup_iff.mpr o.contents_nodup)
    (fun c hc inner hinner => hinside c (hperm.mem_iff.mp hc) inner hinner) {}
  have hnonempty : ¬o.command.isEmpty = true := by
    rw [String.isEmpty_iff]
    exact Op.command_ne_empty h
  rw [sorted_encode, cborItem, cborCommand_contents]
  dsimp only
  rw [if_neg hnonempty, hfields]
  exact congrArg Except.ok (Record.op_take h hperm)

theorem isReadable_encodeAll (code : Code) :
    (Item.sortedAll (Op.encodeAll cborEncoding code)).all isReadable = true := by
  induction code with
  | nil => rfl
  | cons o rest ih =>
    rw [Op.encodeAll, Item.sortedAll, List.all_cons, ih, sorted_encode]
    rfl

/-- Proper code is read back from its item. -/
theorem Proper.cborReads {code : Code} (h : code.Proper) : CborReads code := by
  refine h.holds fun code hops => ?_
  show ofCborItem (Item.array (Op.encodeAll cborEncoding code)).sorted = .ok code
  rw [Item.sorted, ofCborItem, if_pos (isReadable_encodeAll code)]
  generalize 0 = k
  induction code generalizing k with
  | nil => rw [Op.encodeAll, Item.sortedAll, cborItems]
  | cons o rest ih =>
    obtain ⟨⟨hproper, hinside⟩, hrest⟩ := List.forall_mem_cons.mp hops
    rw [Op.encodeAll, Item.sortedAll, cborItems, cborItem_encode k hproper hinside, ih hrest]
    rfl

/-- Code is read back from its bytes if the bytes are read back as the item that was written. -/
theorem ofCbor_toCbor {code : Code} (h : code.Proper)
    (hkept : (code.encode cborEncoding).Kept) : ofCbor code.toCbor = .ok code := by
  have hread : Cbor.parse? code.toCbor = some (code.encode cborEncoding).sorted := hkept
  rw [ofCbor, hread]
  show (ofCborItem (code.encode cborEncoding).sorted).mapError _ = _
  rw [h.cborReads]
  rfl

end Resumable.Code
