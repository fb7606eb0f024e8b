/-
  Resumable.Proofs.Code.JsonReading — code is read back from JSON.

  A record is read twice.  The first reading takes the command and passes over all other fields,
  and the second one finds the fields under their names, each with a value of its type.

  Main statement: `ofJson_toJson`.
-/
import Resumable.Code.Json
import Resumable.Proofs.Code.Records
import Resumable.Proofs.Json.Values
import Resumable.Proofs.Support

namespace Resumable.Code

open Json (Value)

/-! ## §1. The first reading. -/

/-- No other field is taken for the command. -/
theorem jsonSlot?_fieldNames :
    ∀ key ∈ Op.fieldNames, jsonSlot? [("command", .text)] key = none := by
  decide +kernel

/-- A field as it is written. -/
def jsonField (c : String × Content) : String × Value := (c.1, c.2.value jsonEncoding)

/-- The first reading finds the command of an instruction. -/
theorem jsonCommand_contents {o : Op} (h : o.isProper = true) :
    jsonCommand (o.contents.map jsonField) = .ok o.command := by
  have found : jsonSlot? [("command", .text)] "command" = some ("command", .text) := rfl
  have first : o.contents.map jsonField =
      ("command", .string o.command) :: o.fields.map jsonField := rfl
  rw [first, jsonCommand, List.foldl_cons, foldl_unchanged _ fun d f hf => ?_]
  · simp [found, JsonDraft.text, Record.setText, Record.text, Op.command_ne_empty h]
  · obtain ⟨c, hc, rfl⟩ := List.mem_map.mp hf
    simp only [jsonField, jsonSlot?_fieldNames c.1 (Op.mem_fieldNames hc)]

/-! ## §2. The second reading. -/

/-- The names of a list are read as they are, whatever an earlier list held. -/
theorem nameItems_strings (xs earlier : List String) :
    JsonDraft.nameItems (xs.map Value.string) earlier = xs := by
  induction xs generalizing earlier with
  | nil => rfl
  | cons x xs ih => rw [List.map_cons, JsonDraft.nameItems, ih]

/-- A list of names is read as it is, and so is that there is none. -/
theorem nameList_names (r : Record) (earlier : List String) (xs : Option (List String)) :
    ∃ names, ({ record := r, names := earlier } : JsonDraft).nameList
      ((Content.names xs).value jsonEncoding) = { record := { r with args := xs }, names } := by
  match xs with
  | none | some [] => exact ⟨[], rfl⟩
  | some (x :: xs) =>
    have names := nameItems_strings (x :: xs) earlier
    have all : ((x :: xs).map Value.string).all JsonDraft.isName = true := by
      rw [List.all_map, List.all_eq_true]
      exact fun _ _ => rfl
    -- names of a longer earlier list stay behind, where nothing looks for them
    refine ⟨x :: xs ++ earlier.drop (x :: xs).length, ?_⟩
    show JsonDraft.nameList _ (.array ((x :: xs).map Value.string)) = _
    rw [List.map_cons] at names all ⊢
    simp only [JsonDraft.nameList, names, all]
    rfl

/-- Every content finds its slot under its name. -/
theorem jsonSlot?_contents {o : Op} (h : o.isProper = true) : ∀ c ∈ o.contents,
    jsonSlot? (slots o.command) c.1 = some (c.1, c.2.slot) := by
  intro c hc
  rw [jsonSlot?, Op.find?_slots h c hc]
  rfl

/-- The second reading puts every content into the record. -/
theorem jsonFields_contents {known : List (String × Slot)} {cs : List (String × Content)}
    (hknown : ∀ c ∈ cs, jsonSlot? known c.1 = some (c.1, c.2.slot))
    (hcode : ∀ c ∈ cs, ∀ inner, c.2 = .code inner →
      ofJsonValue (inner.encode jsonEncoding) = .ok inner) (r : Record) (earlier : List String) :
    ∃ names, jsonFields known (cs.map jsonField) { record := r, names := earlier } =
      .ok { record := cs.foldl Record.take r, names } := by
  induction cs generalizing r earlier with
  | nil => exact ⟨earlier, by rw [List.map_nil, jsonFields, List.foldl_nil]⟩
  | cons c cs ih =>
    obtain ⟨hslot, hknown⟩ := List.forall_mem_cons.mp hknown
    obtain ⟨hhere, hcode⟩ := List.forall_mem_cons.mp hcode
    have hrest := fun r earlier => ih hknown hcode r earlier
    rw [List.map_cons, jsonField, jsonFields, hslot, List.foldl_cons]
    obtain ⟨name, s | b | inner | xs⟩ := c
    · exact hrest _ earlier
    · exact hrest _ earlier
    · have hinner : ofJsonValue ((Content.code inner).value jsonEncoding) = .ok inner :=
        hhere inner rfl
      dsimp only [Content.slot]
      rw [hinner]
      exact hrest _ earlier
    · obtain ⟨names, hnames⟩ := nameList_names r earlier xs
      dsimp only [Content.slot]
      rw [JsonDraft.plain, hnames]
      exact hrest _ names

/-! ## §3. Instructions. -/

/-- Whether a code is read back from its value. -/
def JsonReads (code : Code) : Prop := ofJsonValue (code.encode jsonEncoding) = .ok code

/-- An instruction is read back if the code inside it is. -/
theorem jsonItem_encode (k : Nat) {o : Op} (h : o.isProper = true) (hinside : o.Inside JsonReads) :
    jsonItem k (o.encode jsonEncoding) = .ok o := by
  obtain ⟨names, hfields⟩ := jsonFields_contents (jsonSlot?_contents h) hinside {} []
  rw [Op.encode_eq]
  show jsonItem k (.object (o.contents.map jsonField)) = _
  rw [jsonItem, jsonCommand_contents h]
  dsimp only
  rw [hfields]
  exact congrArg Except.ok (Record.op_take h (List.Perm.refl _))

/-- Proper code is read back from its value. -/
theorem Proper.jsonReads {code : Code} (h : code.Proper) : JsonReads code := by
  refine h.holds fun code hops => ?_
  show ofJsonValue (.array (Op.encodeAll jsonEncoding code)) = .ok code
  rw [ofJsonValue]
  generalize 0 = k
  induction code generalizing k with
  | nil => rw [Op.encodeAll, jsonItems]
  | cons o rest ih =>
    obtain ⟨⟨hproper, hinside⟩, hrest⟩ := List.forall_mem_cons.mp hops
    rw [Op.encodeAll, jsonItems, jsonItem_encode k hproper hinside, ih hrest]
    rfl

/-- Code is read back from its text if the text is read back as the value that was written. -/
theorem ofJson_toJson {code : Code} (h : code.Proper)
    (hkept : (code.encode jsonEncoding).Kept) : ofJson (Text.bytesOf code.toJson) = .ok code := by
  have hread : Json.parse? (Text.bytesOf code.toJson) = some (code.encode jsonEncoding) := hkept
  rw [ofJson, hread]
  show (ofJsonValue (code.encode jsonEncoding)).mapError _ = _
  rw [h.jsonReads]
  rfl

end Resumable.Code
