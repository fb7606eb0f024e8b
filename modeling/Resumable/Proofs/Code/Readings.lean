/-
  Resumable.Proofs.Code.Readings — the two readings of an instruction.

  An instruction is read twice, first for its command and then for the fields that the command
  calls for, and both readings look for the command among the same entries.  The input may name it
  more than once, in other letters, with null for its text or not at all; whatever they make of
  that, the two readings find the same (`jsonFields_command`, `cborEntries_command`).  So the record
  that an instruction is made of has the command that the instruction was chosen by, and code that
  was accepted is made of such instructions at every depth.
-/
import Resumable.Code.Cbor
import Resumable.Code.Json
import Resumable.Proofs.Code.Records

namespace Resumable

/-! ## §1. Instructions and their records. -/

/-- The command of an instruction is not empty, and it says what the instruction is. -/
structure Op.WellFormed (o : Op) : Prop where
  named : o.command ≠ ""
  branch : (∃ cond yes no async, o = .branch cond yes no async) ↔ o.command = "if"
  loop : (∃ cond step body async, o = .loop cond step body async) ↔ o.command = "for"
  defun : (∃ name args code async, o = .defun name args code async) ↔ o.command = "defun"

/-- An instruction is made of a record that has the command of the instruction. -/
structure Op.MadeOf (o : Op) (r : Record) : Prop where
  named : o.command ≠ ""
  command : r.text "command" = o.command
  op : o = r.op o.command

theorem Record.op_cases (r : Record) (command : String) :
    command = "if" ∧ (∃ cond yes no async, r.op command = .branch cond yes no async) ∨
    command = "for" ∧ (∃ cond step body async, r.op command = .loop cond step body async) ∨
    command = "defun" ∧ (∃ name args code async, r.op command = .defun name args code async) ∨
    command ≠ "if" ∧ command ≠ "for" ∧ command ≠ "defun" ∧
      ∃ code async, r.op command = .leaf command code async := by
  unfold Record.op
  by_cases hif : command = "if"
  · simp [hif]
  by_cases hfor : command = "for"
  · simp [hfor]
  by_cases hdefun : command = "defun"
  · simp [hdefun]
  · simp [hif, hfor, hdefun]

/-- The instruction that a command calls for has that command. -/
theorem Record.command_op (r : Record) (command : String) : (r.op command).command = command := by
  rcases r.op_cases command with ⟨rfl, _, _, _, _, h⟩ | ⟨rfl, _, _, _, _, h⟩ |
    ⟨rfl, _, _, _, _, h⟩ | ⟨-, -, -, _, _, h⟩ <;> rw [h] <;> rfl

/-- The instruction is the one that the command calls for. -/
theorem Record.op_wellFormed (r : Record) {command : String} (h : command ≠ "") :
    (r.op command).WellFormed := by
  constructor <;> rw [command_op]
  · exact h
  all_goals
    rcases r.op_cases command with ⟨rfl, _, _, _, _, h⟩ | ⟨rfl, _, _, _, _, h⟩ |
      ⟨rfl, _, _, _, _, h⟩ | ⟨hif, hfor, hdefun, _, _, h⟩
    · simp [h]
    · simp [h]
    · simp [h]
    · simp [h, hif, hfor, hdefun]

namespace Op

theorem MadeOf.wellFormed {o : Op} {r : Record} (h : o.MadeOf r) : o.WellFormed := by
  rw [h.op]
  exact r.op_wellFormed h.named

theorem madeOf_op {r : Record} {command : String} (hnamed : command ≠ "")
    (hcommand : r.text "command" = command) : (r.op command).MadeOf r := by
  constructor <;> rw [Record.command_op]
  · exact hnamed
  · exact hcommand

theorem WellFormed.isProper {o : Op} (h : o.WellFormed) : o.isProper = true := by
  cases o with
  | leaf command code async =>
    have hif : command ≠ "if" := fun hc => by simpa using h.branch.mpr hc
    have hfor : command ≠ "for" := fun hc => by simpa using h.loop.mpr hc
    have hdefun : command ≠ "defun" := fun hc => by simpa using h.defun.mpr hc
    have hnamed : command ≠ "" := h.named
    simp [Op.isProper, hif, hfor, hdefun, hnamed]
  | _ => rfl

end Op

/-- Whether a property holds of all instructions in the lists of a record. -/
def Record.Every (P : Op → Prop) (r : Record) : Prop := ∀ field, (r.code field).Every P

namespace Record

variable {P : Op → Prop} {r : Record}

theorem every_empty : Every P {} := fun _ => Code.every_nil

theorem Every.setCode (h : r.Every P) {code : Code} (hcode : code.Every P) (field : String) :
    (r.setCode field code).Every P := by
  intro name
  unfold Record.code Record.setCode
  rw [List.lookup_cons]
  split
  · exact hcode
  · exact h name

/-- The lists of an instruction are those of its record. -/
theorem Every.inner_op (h : r.Every P) (command : String) : Code.Every P (r.op command).inner := by
  unfold op
  split
  · exact Code.every_append.mpr ⟨h _, h _⟩
  split
  · exact Code.every_append.mpr ⟨Code.every_append.mpr ⟨h _, h _⟩, h _⟩
  split
  · exact h _
  · exact Code.every_nil

theorem text_setText_of_ne {field name : String} (h : field ≠ name) (s : String) :
    (r.setText field s).text name = r.text name := by
  simp [setText, text, List.lookup_cons, beq_eq_false_iff_ne.mpr h.symm]

theorem text_setText (field s : String) : (r.setText field s).text field = s := by
  simp [setText, text]

/-- What a field without instructions does to a record: it sets the text of that name, or it leaves
    all texts as they are.  It leaves the lists as they are in any case. -/
inductive Plain (r : Record) (field : String) : Record → Prop where
  | text (s : String) : Plain r field (r.setText field s)
  | other {r' : Record} (texts : r'.texts = r.texts) (codes : r'.codes = r.codes) :
      Plain r field r'

namespace Plain

variable {field : String} {r' : Record}

theorem codes_eq (h : r.Plain field r') : r'.codes = r.codes := by
  cases h with
  | text s => rfl
  | other _ codes => exact codes

theorem every (h : r.Plain field r') (hr : r.Every P) : r'.Every P := by
  intro name
  rw [Record.code, h.codes_eq]
  exact hr name

/-- Another field leaves the command as it is. -/
theorem command_eq (h : r.Plain field r') (hfield : field ≠ "command") :
    r'.text "command" = r.text "command" := by
  cases h with
  | text s => exact text_setText_of_ne hfield s
  | other texts _ => rw [Record.text, texts, Record.text]

end Plain

end Record

namespace Code

/-! ## §2. The name of the command. -/

section

variable (g : Char → Char)

/-- The slot that a key stands for: the one with this name, or else one whose name differs from it
    at most in letters that `g` makes equal. -/
def slotBy? (free : List (String × Slot)) (key : String) : Option (String × Slot) :=
  (free.find? (fun f => f.1 == key)).or
    (free.find? (fun f => f.1.toList.map g == key.toList.map g))

/-- Whether only the slot of the command has a name that can be taken for the command. -/
def Headed (free : List (String × Slot)) : Prop :=
  ∀ f ∈ free, f = ("command", .text) ∨ f.1.toList.map g ≠ "command".toList.map g

variable {g} {free : List (String × Slot)} {key : String}

theorem slotBy?_command (hfree : Headed g free) (hmem : ("command", .text) ∈ free)
    (hkey : "command".toList.map g = key.toList.map g) :
    slotBy? g free key = some ("command", .text) := by
  -- both searches can only hit the command, and the second one does
  have hits : ∀ f ∈ free, f.1.toList.map g = key.toList.map g → f = ("command", .text) :=
    fun f hf heq => (hfree f hf).resolve_right fun hne => hne (heq.trans hkey.symm)
  unfold slotBy?
  cases hexact : free.find? (fun f => f.1 == key) with
  | some f =>
    have heq : f.1 = key := by simpa using List.find?_some hexact
    rw [Option.some_or, hits f (List.mem_of_find?_eq_some hexact) (by rw [heq])]
  | none =>
    rw [Option.none_or]
    cases hnear : free.find? (fun f => f.1.toList.map g == key.toList.map g) with
    | some f =>
      rw [hits f (List.mem_of_find?_eq_some hnear) (by simpa using List.find?_some hnear)]
    | none =>
      have := List.find?_eq_none.mp hnear _ hmem
      exact absurd (beq_iff_eq.mpr hkey) this

theorem ne_command_of_slotBy? (hkey : "command".toList.map g ≠ key.toList.map g)
    {f : String × Slot} (h : slotBy? g free key = some f) : f.1 ≠ "command" := by
  intro hf
  rcases Option.or_eq_some_iff.mp h with h | ⟨-, h⟩
  · have heq : f.1 = key := by simpa using List.find?_some h
    exact hkey (by rw [← hf, heq])
  · have heq : f.1.toList.map g = key.toList.map g := by simpa using List.find?_some h
    exact hkey (by rw [← hf, heq])

theorem mem_of_slotBy? {f : String × Slot} (h : slotBy? g free key = some f) : f ∈ free := by
  rcases Option.or_eq_some_iff.mp h with h | ⟨-, h⟩ <;> exact List.mem_of_find?_eq_some h

/-- Where the command is the only slot, no other key stands for one. -/
theorem slotBy?_single (hkey : "command".toList.map g ≠ key.toList.map g) :
    slotBy? g [("command", .text)] key = none := by
  have hne : "command" ≠ key := fun heq => hkey (by rw [heq])
  refine Option.or_eq_none_iff.mpr ⟨?_, ?_⟩
  · exact List.find?_eq_none.mpr fun f hf heq =>
      hne (by rw [List.mem_singleton.mp hf] at heq; exact eq_of_beq heq)
  · exact List.find?_eq_none.mpr fun f hf heq =>
      hkey (by rw [List.mem_singleton.mp hf] at heq; exact eq_of_beq heq)

theorem headed_single : Headed g [("command", .text)] := fun _ hf =>
  .inl (List.mem_singleton.mp hf)

theorem headed_slots (hg : ∀ name ∈ Op.fieldNames, name.toList.map g ≠ "command".toList.map g)
    (command : String) : Headed g (slots command) := by
  have others : ∀ f ∈ slots command, f = ("command", .text) ∨ f.1 ∈ Op.fieldNames := by
    unfold slots
    split
    · decide
    split
    · decide
    split <;> decide
  exact fun f hf => (others f hf).imp_right (hg f.1)

theorem command_mem_slots (command : String) : ("command", .text) ∈ slots command := by
  unfold slots
  split
  · exact List.mem_cons_self
  split
  · exact List.mem_cons_self
  split <;> exact List.mem_cons_self

end

/-! ## §3. JSON. -/

section

open Json (Value)

/-- What the first reading makes of an entry. -/
def jsonHead (d : JsonDraft) (f : String × Value) : JsonDraft :=
  match jsonSlot? [("command", .text)] f.1 with
  | some (field, _) => d.text field f.2
  | none => d

/-- The first reading ends with a text that is not empty. -/
theorem jsonCommand_eq_ok {fields : List (String × Value)} {command : String}
    (h : jsonCommand fields = .ok command) :
    command ≠ "" ∧ (fields.foldl jsonHead {}).record.text "command" = command := by
  have hrun : jsonCommand fields =
      if (fields.foldl jsonHead {}).faulty then .error .external
      else if ((fields.foldl jsonHead {}).record.text "command").isEmpty then
        .error (.plain "missing command")
      else .ok ((fields.foldl jsonHead {}).record.text "command") := rfl
  rw [hrun] at h
  split at h
  · cases h
  split at h
  · cases h
  next hempty =>
    obtain rfl := Except.ok.inj h
    refine ⟨fun heq => hempty ?_, rfl⟩
    rw [heq]
    rfl

variable {d e : JsonDraft}

/-- What a value makes of the command depends on the command only. -/
theorem text_command_congr (h : d.record.text "command" = e.record.text "command") (v : Value) :
    (d.text "command" v).record.text "command" = (e.text "command" v).record.text "command" := by
  cases v with
  | string s => rw [JsonDraft.text, JsonDraft.text, Record.text_setText, Record.text_setText]
  | _ => exact h

theorem plain_plain (field : String) (slot : Slot) (v : Value) :
    d.record.Plain field (d.plain field slot v).record := by
  cases slot with
  | text =>
    cases v with
    | string s => exact .text s
    | _ => exact .other rfl rfl
  | flag => cases v <;> exact .other rfl rfl
  | code => exact .other rfl rfl
  | names =>
    cases v with
    | array vs => cases vs <;> exact .other rfl rfl
    | _ => exact .other rfl rfl

theorem headed_slots_fold (command : String) : Headed Text.fold (slots command) :=
  headed_slots (by decide +kernel) command

theorem jsonHead_eq (e : JsonDraft) (k : String) (v : Value) :
    jsonHead e (k, v) =
      if "command".toList.map Text.fold = k.toList.map Text.fold then e.text "command" v
      else e := by
  unfold jsonHead
  by_cases hkey : "command".toList.map Text.fold = k.toList.map Text.fold
  · have hslot : jsonSlot? [("command", .text)] k = some ("command", .text) :=
      slotBy?_command headed_single List.mem_cons_self hkey
    rw [hslot, if_pos hkey]
  · have hslot : jsonSlot? [("command", .text)] k = none := slotBy?_single hkey
    rw [hslot, if_neg hkey]

/-- The second reading makes of the command what the first one does. -/
theorem jsonFields_text {command : String} {fields : List (String × Value)} {d' : JsonDraft}
    (h : jsonFields (slots command) fields d = .ok d')
    (hde : d.record.text "command" = e.record.text "command") :
    d'.record.text "command" = (fields.foldl jsonHead e).record.text "command" := by
  induction fields generalizing d e with
  | nil =>
    rw [jsonFields] at h
    obtain rfl := Except.ok.inj h
    exact hde
  | cons f fields ih =>
    obtain ⟨k, v⟩ := f
    rw [List.foldl_cons, jsonHead_eq]
    rw [jsonFields] at h
    split
    next hkey =>
      have hslot : jsonSlot? (slots command) k = some ("command", .text) :=
        slotBy?_command (headed_slots_fold command) (command_mem_slots command) hkey
      rw [hslot] at h
      exact ih h (text_command_congr hde v)
    next hkey =>
      split at h
      · exact ih h hde
      next =>
        split at h
        · cases h
        · exact ih h hde
      next field slot _ hslot =>
        have hplain := plain_plain (d := d) field slot v
        exact ih h (by rw [hplain.command_eq (ne_command_of_slotBy? hkey hslot), hde])

/-- Whatever a record names as its command, and how often, its two readings find the same. -/
theorem jsonFields_command {fields : List (String × Value)} {command : String}
    (hc : jsonCommand fields = .ok command) (hd : jsonFields (slots command) fields {} = .ok d) :
    d.record.text "command" = command := by
  rw [jsonFields_text (e := {}) hd rfl]
  exact (jsonCommand_eq_ok hc).2

/-- An object that is taken for an instruction makes it up as the second reading leaves it. -/
theorem jsonItem_madeOf {k : Nat} {fields : List (String × Value)} {o : Op}
    (h : jsonItem k (.object fields) = .ok o) :
    ∃ d, jsonFields (slots o.command) fields {} = .ok d ∧ o.MadeOf d.record := by
  rw [jsonItem] at h
  split at h
  · cases h
  next command hc =>
    split at h
    next d hd =>
      split at h
      · cases h
      · obtain rfl := Except.ok.inj h
        refine ⟨d, ?_, Op.madeOf_op (jsonCommand_eq_ok hc).1 (jsonFields_command hc hd)⟩
        rw [Record.command_op, hd]
    · cases h

mutual

theorem ofJsonValue_every {v : Value} {code : Code} (h : ofJsonValue v = .ok code) :
    code.Every Op.WellFormed := by
  cases v with
  | array vs =>
    rw [ofJsonValue] at h
    exact jsonItems_every h
  | null =>
    rw [ofJsonValue] at h
    obtain rfl := Except.ok.inj h
    exact every_nil
  | _ => cases h

theorem jsonItems_every {k : Nat} {vs : List Value} {code : Code} (h : jsonItems k vs = .ok code) :
    code.Every Op.WellFormed := by
  cases vs with
  | nil =>
    rw [jsonItems] at h
    obtain rfl := Except.ok.inj h
    exact every_nil
  | cons v rest =>
    rw [jsonItems] at h
    obtain ⟨o, ho, h⟩ := bind_eq_ok h
    obtain ⟨os, hos, h⟩ := bind_eq_ok h
    cases h
    obtain ⟨hmade, hinner⟩ := jsonItem_every ho
    exact every_cons.mpr ⟨hmade, hinner, jsonItems_every hos⟩

theorem jsonItem_every {k : Nat} {v : Value} {o : Op} (h : jsonItem k v = .ok o) :
    o.WellFormed ∧ Every Op.WellFormed o.inner := by
  cases v with
  | object fields =>
    obtain ⟨d, hd, hmade⟩ := jsonItem_madeOf h
    refine ⟨hmade.wellFormed, ?_⟩
    rw [hmade.op]
    exact (jsonFields_every hd Record.every_empty).inner_op _
  | _ => cases h

theorem jsonFields_every {known : List (String × Slot)} {fields : List (String × Value)}
    {d d' : JsonDraft} (h : jsonFields known fields d = .ok d')
    (hd : d.record.Every Op.WellFormed) : d'.record.Every Op.WellFormed := by
  cases fields with
  | nil =>
    rw [jsonFields] at h
    obtain rfl := Except.ok.inj h
    exact hd
  | cons f fields =>
    obtain ⟨k, v⟩ := f
    rw [jsonFields] at h
    split at h
    · exact jsonFields_every h hd
    · split at h
      · cases h
      next hv => exact jsonFields_every h (hd.setCode (ofJsonValue_every hv) _)
    · exact jsonFields_every h ((plain_plain _ _ v).every hd)

end

end

/-! ## §4. CBOR. -/

section

open Cbor (Item)

theorem headed_slots_lower (command : String) : Headed Char.toLower (slots command) :=
  headed_slots (by decide +kernel) command

/-- Once the command was found, the first reading keeps it. -/
theorem cborCommand_found {entries : List (Item × Item)} {s command : String}
    (h : cborCommand entries [] s = .ok command) : command = s := by
  induction entries with
  | nil =>
    rw [cborCommand] at h
    exact (Except.ok.inj h).symm
  | cons e entries ih =>
    obtain ⟨k, v⟩ := e
    rw [cborCommand] at h
    split at h
    · cases h
    next key _ =>
      have hslot : key.bind (cborSlot? []) = none := by cases key <;> rfl
      rw [hslot] at h
      exact ih h

theorem cborField_plain {r r' : Record} {field : String} {slot : Slot} {v : Item}
    (h : cborField r field slot v = .ok r') : r.Plain field r' := by
  cases slot with
  | text =>
    obtain ⟨s, -, h⟩ := bind_eq_ok h
    cases s with
    | none =>
      cases h
      exact .other rfl rfl
    | some s =>
      cases h
      exact .text s
  | flag =>
    obtain ⟨b, -, h⟩ := bind_eq_ok h
    cases h
    exact .other rfl rfl
  | names =>
    obtain ⟨xs, -, h⟩ := bind_eq_ok h
    cases h
    exact .other rfl rfl
  | code =>
    cases h
    exact .other rfl rfl

/-- Without the slot of the command the second reading leaves the command as it is. -/
theorem cborEntries_found {free : List (String × Slot)} (hfree : ∀ f ∈ free, f.1 ≠ "command")
    {entries : List (Item × Item)} {r r' : Record} (h : cborEntries free entries r = .ok r') :
    r'.text "command" = r.text "command" := by
  induction entries generalizing free r with
  | nil =>
    rw [cborEntries] at h
    obtain rfl := Except.ok.inj h
    rfl
  | cons e entries ih =>
    obtain ⟨k, v⟩ := e
    rw [cborEntries] at h
    split at h
    · cases h
    split at h
    · exact ih hfree h
    next field slot hslot =>
      have hfield : field ≠ "command" := by
        obtain ⟨name, -, hname⟩ := Option.bind_eq_some_iff.mp hslot
        exact hfree _ (mem_of_slotBy? hname)
      have hleft : ∀ f ∈ free.filter (fun f => f.1 != field), f.1 ≠ "command" :=
        fun f hf => hfree f (List.mem_of_mem_filter hf)
      dsimp only at h
      split at h
      · split at h
        · cases h
        · have := ih hleft h
          exact this
      · split at h
        · cases h
        next hr => rw [ih hleft h, (cborField_plain hr).command_eq hfield]

/-- The second reading finds the command that the first one finds. -/
theorem cborEntries_text {command : String} {free : List (String × Slot)}
    (hsub : ∀ f ∈ free, f ∈ slots command) (hmem : ("command", .text) ∈ free)
    {entries : List (Item × Item)} {r r' : Record} {s : String}
    (hc : cborCommand entries [("command", .text)] (r.text "command") = .ok s)
    (h : cborEntries free entries r = .ok r') : r'.text "command" = s := by
  induction entries generalizing free r with
  | nil =>
    rw [cborEntries] at h
    rw [cborCommand] at hc
    obtain rfl := Except.ok.inj h
    exact Except.ok.inj hc
  | cons e entries ih =>
    obtain ⟨k, v⟩ := e
    rw [cborEntries] at h
    rw [cborCommand] at hc
    cases hk : cborKey? k with
    | none =>
      rw [hk] at h
      cases h
    | some key =>
      rw [hk] at h hc
      cases key with
      | none => exact ih hsub hmem hc h
      | some name =>
        dsimp only [Option.bind_some] at h hc
        by_cases hkey : "command".toList.map Char.toLower = name.toList.map Char.toLower
        · have hfree : Headed Char.toLower free :=
            fun f hf => headed_slots_lower command f (hsub f hf)
          have hslot : cborSlot? free name = some ("command", .text) :=
            slotBy?_command hfree hmem hkey
          have hhead : cborSlot? [("command", .text)] name = some ("command", .text) :=
            slotBy?_command headed_single List.mem_cons_self hkey
          rw [hslot] at h
          rw [hhead] at hc
          obtain ⟨t, ht, hc⟩ := bind_eq_ok hc
          have hfield : cborField r "command" .text v = .ok (t.elim r (r.setText "command")) := by
            rw [cborField, ht]
            cases t <;> rfl
          have hleft : ∀ f ∈ free.filter (fun f => f.1 != "command"), f.1 ≠ "command" :=
            fun f hf => by simpa using (List.mem_filter.mp hf).2
          dsimp only at h
          rw [if_neg (by decide), hfield] at h
          -- from here on neither reading looks for the command again
          rw [cborCommand_found hc, cborEntries_found hleft h]
          cases t with
          | none => rfl
          | some t => exact Record.text_setText "command" t
        · have hhead : cborSlot? [("command", .text)] name = none := slotBy?_single hkey
          rw [hhead] at hc
          dsimp only at hc
          split at h
          · exact ih hsub hmem hc h
          next field slot hslot =>
            have hne : field ≠ "command" := ne_command_of_slotBy? hkey hslot
            have hleft : ("command", .text) ∈ free.filter (fun f => f.1 != field) :=
              List.mem_filter.mpr ⟨hmem, by simpa using hne.symm⟩
            have hless : ∀ f ∈ free.filter (fun f => f.1 != field), f ∈ slots command :=
              fun f hf => hsub f (List.mem_of_mem_filter hf)
            split at h
            · split at h
              · cases h
              · exact ih (r := r.setCode field _) hless hleft hc h
            · split at h
              · cases h
              next hr =>
                rw [← (cborField_plain hr).command_eq hne] at hc
                exact ih hless hleft hc h

/-- Whatever a record names as its command, and how often, its two readings find the same. -/
theorem cborEntries_command {entries : List (Item × Item)} {command : String} {r : Record}
    (hc : cborCommand entries [("command", .text)] "" = .ok command)
    (hr : cborEntries (slots command) entries {} = .ok r) : r.text "command" = command :=
  cborEntries_text (fun _ hf => hf) (command_mem_slots command) hc hr

/-- A map that is taken for an instruction makes it up as the second reading leaves it. -/
theorem cborItem_madeOf {k : Nat} {entries : List (Item × Item)} {o : Op}
    (h : cborItem k (.map entries) = .ok o) :
    ∃ r, cborEntries (slots o.command) entries {} = .ok r ∧ o.MadeOf r := by
  rw [cborItem] at h
  split at h
  · cases h
  next command hc =>
    split at h
    · cases h
    next hempty =>
      split at h
      next r hr =>
        obtain rfl := Except.ok.inj h
        have hnamed : command ≠ "" := fun heq => hempty (by rw [heq]; rfl)
        refine ⟨r, ?_, Op.madeOf_op hnamed (cborEntries_command hc hr)⟩
        rw [Record.command_op, hr]
      · cases h

mutual

theorem ofCborItem_every {i : Item} {code : Code} (h : ofCborItem i = .ok code) :
    code.Every Op.WellFormed := by
  cases i with
  | tagged tag i =>
    rw [ofCborItem] at h
    split at h
    · exact ofCborItem_every h
    split at h
    · exact ofCborItem_every h
    · cases h
  | array is =>
    rw [ofCborItem] at h
    split at h
    · exact cborItems_every h
    · cases h
  | null | undefined =>
    rw [ofCborItem] at h
    obtain rfl := Except.ok.inj h
    exact every_nil
  | _ => cases h

theorem cborItems_every {k : Nat} {is : List Item} {code : Code} (h : cborItems k is = .ok code) :
    code.Every Op.WellFormed := by
  cases is with
  | nil =>
    rw [cborItems] at h
    obtain rfl := Except.ok.inj h
    exact every_nil
  | cons i rest =>
    rw [cborItems] at h
    obtain ⟨o, ho, h⟩ := bind_eq_ok h
    obtain ⟨os, hos, h⟩ := bind_eq_ok h
    cases h
    obtain ⟨hmade, hinner⟩ := cborItem_every ho
    exact every_cons.mpr ⟨hmade, hinner, cborItems_every hos⟩

theorem cborItem_every {k : Nat} {i : Item} {o : Op} (h : cborItem k i = .ok o) :
    o.WellFormed ∧ Every Op.WellFormed o.inner := by
  cases i with
  | tagged tag i =>
    rw [cborItem] at h
    split at h
    · exact cborItem_every h
    split at h
    · exact cborItem_every h
    · cases h
  | map entries =>
    obtain ⟨r, hr, hmade⟩ := cborItem_madeOf h
    refine ⟨hmade.wellFormed, ?_⟩
    rw [hmade.op]
    exact (cborEntries_every hr Record.every_empty).inner_op _
  | _ => cases h

theorem cborEntries_every {free : List (String × Slot)} {entries : List (Item × Item)}
    {r r' : Record} (h : cborEntries free entries r = .ok r') (hr : r.Every Op.WellFormed) :
    r'.Every Op.WellFormed := by
  cases entries with
  | nil =>
    rw [cborEntries] at h
    obtain rfl := Except.ok.inj h
    exact hr
  | cons e entries =>
    obtain ⟨k, v⟩ := e
    rw [cborEntries] at h
    split at h
    · cases h
    split at h
    · exact cborEntries_every h hr
    next field slot hslot =>
      dsimp only at h
      split at h
      · split at h
        · cases h
        next hv => exact cborEntries_every h (hr.setCode (ofCborItem_every hv) field)
      · split at h
        · cases h
        next hplain => exact cborEntries_every h ((cborField_plain hplain).every hr)

end

end

end Code

end Resumable
