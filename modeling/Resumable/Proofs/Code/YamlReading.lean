/-
  Resumable.Proofs.Code.YamlReading — code is read back from YAML.

  The text of a document is first read as nodes.  Where these show what was written, node by node,
  a reading meets no alias, no key twice and no merge, so no visit is refused and every field is
  filled once.  What it cannot tell is whether parameters were left out or are none: both are
  written as an empty list.

  Main statement: `ofYaml_toYaml`.
-/
import Resumable.Code.Yaml
import Resumable.Proofs.Code.Records

namespace Resumable

/-! ## §1. Nodes that show what was written. -/

namespace Yaml

namespace Data

mutual

/-- Whether a node shows a value: a text as a scalar that counts as a string, a flag as a boolean, a
    list or a record item by item.  The text `<<` may have the tag of a merge. -/
def shows : Data → Node → Bool
  | text s, .scalar tag value _ _ => value == s && (tag == Tag.str || tag == Tag.merge)
  | flag b, .scalar tag value _ _ => tag == Tag.bool && value == (if b then "true" else "false")
  | list ds, .sequence tag items _ => tag == Tag.seq && showsAll ds items
  | record fields, .mapping tag entries _ => tag == Tag.map && showsFields fields entries
  | _, _ => false

/-- Whether nodes show values one by one. -/
def showsAll : List Data → List Node → Bool
  | [], [] => true
  | d :: ds, n :: ns => d.shows n && showsAll ds ns
  | _, _ => false

/-- Whether entries show fields one by one.  A key is a string. -/
def showsFields : List (String × Data) → List (Node × Node) → Bool
  | [], [] => true
  | (name, d) :: fields, (.scalar tag value _ _, n) :: entries =>
      tag == Tag.str && value == name && d.shows n && showsFields fields entries
  | _, _ => false

end

/-- Whether the text of a value is read as nodes that show it. -/
def Kept (d : Data) : Prop :=
  ∃ doc, Document.parse (Text.bytesOf d.toText) = .ok (some doc) ∧ d.shows doc.root = true

instance (d : Data) : Decidable d.Kept :=
  match h : Document.parse (Text.bytesOf d.toText) with
  | .ok (some doc) =>
      if hshows : d.shows doc.root = true then .isTrue ⟨doc, h, hshows⟩
      else .isFalse fun ⟨_, hdoc, hroot⟩ => by
        rw [h] at hdoc
        cases hdoc
        exact hshows hroot
  | .ok none => .isFalse fun ⟨_, hdoc, _⟩ => by
      rw [h] at hdoc
      cases hdoc
  | .error _ => .isFalse fun ⟨_, hdoc, _⟩ => by
      rw [h] at hdoc
      cases hdoc

/-- A line break at the start of a text is lost. -/
example : ¬(text "\nx").Kept := by decide +kernel

variable {n : Node}

theorem shows_text {s : String} (h : (text s).shows n = true) :
    ∃ tag style line, n = .scalar tag s style line ∧ (tag = Tag.str ∨ tag = Tag.merge) := by
  cases n <;> simp_all [shows]

theorem shows_flag {b : Bool} (h : (flag b).shows n = true) :
    ∃ style line, n = .scalar Tag.bool (if b then "true" else "false") style line := by
  cases n <;> simp_all [shows]

theorem shows_list {ds : List Data} (h : (list ds).shows n = true) :
    ∃ items line, n = .sequence Tag.seq items line ∧ showsAll ds items = true := by
  cases n <;> simp_all [shows]

theorem shows_record {fields : List (String × Data)} (h : (record fields).shows n = true) :
    ∃ entries line, n = .mapping Tag.map entries line ∧ showsFields fields entries = true := by
  cases n <;> simp_all [shows]

end Data

end Yaml

/-! ## §2. Readings behind no alias. -/

namespace Code

open Yaml (Data Document Tag)

/-- Whether a reading gives a result whenever no visit so far was behind an alias, and makes no such
    visit itself. -/
def Yields {α : Type} (m : Decode α) (a : α) : Prop :=
  ∀ v : Visits, v.aliased = 0 → ∃ v' : Visits, v'.aliased = 0 ∧ m.run v = .ok (a, v')

namespace Yields

variable {α β : Type} {m : Decode α} {f : α → Decode β} {a : α} {b : β}

theorem pure (a : α) : Yields (Pure.pure a) a := fun v hv => ⟨v, hv, rfl⟩

theorem lift {r : Except Failure α} (h : r = .ok a) : Yields (liftM r) a := by
  intro v hv
  subst h
  exact ⟨v, hv, rfl⟩

theorem bind (hm : Yields m a) (hf : Yields (f a) b) : Yields (m >>= f) b := by
  intro v hv
  obtain ⟨v₁, hv₁, hrun⟩ := hm v hv
  obtain ⟨v₂, hv₂, hnext⟩ := hf v₁ hv₁
  refine ⟨v₂, hv₂, ?_⟩
  rw [StateT.run_bind, hrun]
  exact hnext

theorem map (g : α → β) (hm : Yields m a) : Yields (g <$> m) (g a) := by
  intro v hv
  obtain ⟨v', hv', hrun⟩ := hm v hv
  refine ⟨v', hv', ?_⟩
  rw [StateT.run_map, hrun]
  rfl

end Yields

variable {doc : Document} {n : Yaml.Node}

/-- A visit behind no alias is not refused. -/
theorem yields_visit : Yields (visit []) () := by
  intro v hv
  refine ⟨v.next false, hv, ?_⟩
  have few : (v.next false).excessive = false := by
    simp [Visits.excessive, Visits.next, hv]
  simp [visit, few]
  rfl

/-- A node that shows a value is no alias. -/
theorem yields_enter {d : Data} (h : d.shows n = true) : Yields (enter doc [] n) (n, []) := by
  refine yields_visit.bind ?_
  cases n with
  | reference anchor name line => cases d <;> cases h
  | _ => exact Yields.pure _

theorem yields_text {s : String} (h : (Data.text s).shows n = true) :
    Yields (yamlText doc [] n) (.value s) := by
  refine (yields_enter h).bind ?_
  obtain ⟨tag, style, line, rfl, htag⟩ := Data.shows_text h
  refine Yields.lift ?_
  rcases htag with rfl | rfl <;> rfl

theorem yields_flag {b : Bool} (h : (Data.flag b).shows n = true) :
    Yields (yamlFlag doc [] n) (.value b) := by
  refine (yields_enter h).bind ?_
  obtain ⟨style, line, rfl⟩ := Data.shows_flag h
  refine Yields.lift ?_
  cases b <;> rfl

/-- The names of a list are read as they are. -/
theorem yields_nameItems {xs : List String} {items : List Yaml.Node}
    (h : Data.showsAll (xs.map Data.text) items = true) :
    Yields (yamlNameItems doc [] items) (xs, false) := by
  induction xs generalizing items with
  | nil =>
    cases items with
    | nil => exact Yields.pure _
    | cons n rest => cases h
  | cons x xs ih =>
    cases items with
    | nil => cases h
    | cons n rest =>
      rw [List.map_cons, Data.showsAll, Bool.and_eq_true] at h
      exact (yields_text h.1).bind ((ih h.2).bind (Yields.pure _))

/-! ## §3. Parameters that were left out. -/

end Code

mutual

/-- An instruction with empty lists of parameters where there were none, also inside. -/
def Op.filled : Op → Op
  | .leaf command code async => .leaf command code async
  | .branch cond yes no async => .branch cond (Op.filledAll yes) (Op.filledAll no) async
  | .loop cond step body async =>
      .loop (Op.filledAll cond) (Op.filledAll step) (Op.filledAll body) async
  | .defun name args code async => .defun name (some (args.getD [])) (Op.filledAll code) async

/-- Instructions with empty lists of parameters where there were none. -/
def Op.filledAll : List Op → List Op
  | [] => []
  | o :: rest => o.filled :: Op.filledAll rest

end

/-- Code with empty lists of parameters where there were none, at every depth. -/
def Code.filled (code : Code) : Code := Op.filledAll code

/-- A content with empty lists of parameters where there were none. -/
def Content.filled : Content → Content
  | text s => .text s
  | flag b => .flag b
  | code c => .code c.filled
  | names xs => .names (some (xs.getD []))

namespace Op

theorem filled_isProper {o : Op} (h : o.isProper = true) : o.filled.isProper = true := by
  cases o with
  | leaf command code async => rwa [filled]
  | _ =>
    rw [filled]
    rfl

theorem filled_command (o : Op) : o.filled.command = o.command := by
  cases o <;> rw [filled] <;> rfl

theorem filled_contents (o : Op) :
    o.filled.contents = o.contents.map (fun c => (c.1, c.2.filled)) := by
  cases o <;> rw [filled] <;> rfl

end Op

namespace Code

/-! ## §4. Records. -/

open Yaml (Data Document Tag)

variable {doc : Document} {n : Yaml.Node}

/-- A field as it is written. -/
def writtenField (c : String × Content) : String × Data := (c.1, c.2.value yamlEncoding)

/-- Whether the code that a content holds, if any, is read back from a node that shows it. -/
def ReadsAt (read : CodeReader) (n : Yaml.Node) (c : Content) : Prop :=
  ∀ inner, c = .code inner → (inner.encode yamlEncoding).shows n = true →
    read n = .ok inner.filled

/-- A field is filled with its content. -/
theorem yields_field {c : Content} {read : CodeReader} (name : String) (r : Record)
    (h : (c.value yamlEncoding).shows n = true) (hread : ReadsAt read n c) :
    Yields (yamlField doc read [] name c.slot n { record := r })
      { record := r.take (name, c.filled) } := by
  cases c with
  | text s => exact (yields_text h).bind (Yields.pure _)
  | flag b => exact (yields_flag h).bind (Yields.pure _)
  | code inner =>
    have hvalue := hread inner rfl h
    refine (yields_enter h).bind ?_
    obtain ⟨items, line, rfl, -⟩ := Data.shows_list h
    have hcode : yamlCode read (.sequence Tag.seq items line) = .ok (.value inner.filled) := by
      rw [yamlCode, hvalue]
      rfl
    exact (Yields.lift hcode).bind (Yields.pure _)
  | names xs =>
    have hlist : (Data.list ((xs.getD []).map Data.text)).shows n = true := by
      cases xs <;> exact h
    refine (yields_enter hlist).bind ?_
    obtain ⟨items, line, rfl, hall⟩ := Data.shows_list hlist
    exact (yields_nameItems hall).bind (Yields.pure _)

/-- Fields that are shown are entries whose keys are strings. -/
theorem showsFields_cons {name : String} {d : Data} {fields : List (String × Data)}
    {entries : List (Yaml.Node × Yaml.Node)}
    (h : Data.showsFields ((name, d) :: fields) entries = true) :
    ∃ style line v rest, entries = (.scalar Tag.str name style line, v) :: rest ∧
      d.shows v = true ∧ Data.showsFields fields rest = true := by
  match entries with
  | (.scalar tag value style line, v) :: rest =>
    simp only [Data.showsFields, Bool.and_eq_true, beq_iff_eq] at h
    obtain ⟨⟨⟨rfl, rfl⟩, hv⟩, hrest⟩ := h
    exact ⟨style, line, v, rest, rfl, hv, hrest⟩

/-- A field that is not asked for is passed over. -/
theorem yields_entry_other {read : CodeReader} {known : List (String × Slot)} {k v : Yaml.Node}
    {name : String} {f : Filling} (hk : (Data.text name).shows k = true)
    (hname : known.lookup name = none) (hf : f.taken = none) :
    Yields (yamlEntry doc read known [] f k v) f := by
  refine (yields_text hk).bind ?_
  obtain ⟨draft, done, taken⟩ := f
  cases hf
  simp [hname]
  exact Yields.pure _

/-- A field that is asked for is filled, once. -/
theorem yields_entry_known {read : CodeReader} {known : List (String × Slot)} {k v : Yaml.Node}
    {name : String} {c : Content} {r : Record} {done : List String}
    (hk : (Data.text name).shows k = true)
    (hv : (c.value yamlEncoding).shows v = true) (hread : ReadsAt read v c)
    (hname : known.lookup name = some c.slot) (hdone : name ∉ done) :
    Yields (yamlEntry doc read known [] { draft := { record := r }, done } k v)
      { draft := { record := r.take (name, c.filled) }, done := name :: done } := by
  refine (yields_text hk).bind ?_
  simp [hname, hdone]
  exact (yields_field name r hv hread).map (fun draft => Filling.mk draft (name :: done) none)

/-- No key that is a string stands for other mappings. -/
theorem isMerge_str (value : String) (style : Yaml.ScalarStyle) (line : Nat) :
    isMerge (.scalar Tag.str value style line) = false := by
  rw [isMerge, Bool.and_eq_false_iff]
  exact .inr rfl

theorem yields_entries_cons {read : CodeReader} {known : List (String × Slot)} {k v : Yaml.Node}
    {rest : List (Yaml.Node × Yaml.Node)} {f g i : Filling} (hk : isMerge k = false)
    (hentry : Yields (yamlEntry doc read known [] f k v) g)
    (hrest : Yields (yamlEntries doc read known [] rest g) i) :
    Yields (yamlEntries doc read known [] ((k, v) :: rest) f) i := by
  rw [yamlEntries, hk]
  exact hentry.bind hrest

/-- The fields that are asked for, as they are read. -/
def asked (known : List (String × Slot)) (cs : List (String × Content)) :
    List (String × Content) :=
  (cs.filter (fun c => (known.lookup c.1).isSome)).map (fun c => (c.1, c.2.filled))

/-- Every field that is asked for is filled with its content. -/
theorem yields_entries {read : CodeReader} {known : List (String × Slot)}
    {cs : List (String × Content)} {entries : List (Yaml.Node × Yaml.Node)} {r : Record}
    {done : List String} (hshow : Data.showsFields (cs.map writtenField) entries = true)
    (hslots : ∀ c ∈ cs, ∀ slot, known.lookup c.1 = some slot → slot = c.2.slot)
    (hread : ∀ c ∈ cs, ∀ e ∈ entries, ReadsAt read e.2 c.2)
    (hnodup : (cs.map (·.1)).Nodup) (hdone : ∀ c ∈ cs, c.1 ∉ done) :
    ∃ done', Yields (yamlEntries doc read known [] entries { draft := { record := r }, done })
      { draft := { record := (asked known cs).foldl Record.take r }, done := done' } := by
  induction cs generalizing entries r done with
  | nil =>
    cases entries with
    | nil => exact ⟨done, Yields.pure _⟩
    | cons e rest => cases hshow
  | cons c cs ih =>
    obtain ⟨name, c⟩ := c
    obtain ⟨style, line, v, rest, rfl, hv, hrest⟩ := showsFields_cons hshow
    obtain ⟨hhere, hslots⟩ := List.forall_mem_cons.mp hslots
    obtain ⟨hreadHere, hread⟩ := List.forall_mem_cons.mp hread
    obtain ⟨hdoneHere, hdone⟩ := List.forall_mem_cons.mp hdone
    obtain ⟨hfresh, hnodup⟩ := List.nodup_cons.mp hnodup
    have hkey : (Data.text name).shows (.scalar Tag.str name style line) = true := by
      simp [Data.shows]
    have hread' : ∀ c ∈ cs, ∀ e ∈ rest, ReadsAt read e.2 c.2 :=
      fun c hc e he => hread c hc e (List.mem_cons_of_mem _ he)
    -- only a field that is asked for changes the record and the names that are done
    cases hlookup : known.lookup name with
    | none =>
      obtain ⟨done', hyields⟩ := ih (r := r) hrest hslots hread' hnodup hdone
      refine ⟨done', ?_⟩
      have hasked : asked known ((name, c) :: cs) = asked known cs := by
        simp [asked, hlookup]
      rw [hasked]
      exact yields_entries_cons (isMerge_str ..) (yields_entry_other hkey hlookup rfl) hyields
    | some slot =>
      cases hhere slot hlookup
      have hdone' : ∀ c ∈ cs, c.1 ∉ name :: done := by
        intro c hc hmem
        rcases List.mem_cons.mp hmem with heq | hmem
        · exact hfresh (List.mem_map.mpr ⟨c, hc, heq⟩)
        · exact hdone c hc hmem
      obtain ⟨done', hyields⟩ :=
        ih (r := r.take (name, c.filled)) hrest hslots hread' hnodup hdone'
      refine ⟨done', ?_⟩
      have hasked : asked known ((name, c) :: cs) = (name, c.filled) :: asked known cs := by
        simp [asked, hlookup]
      rw [hasked]
      have hvalue : ReadsAt read v c := hreadHere _ List.mem_cons_self
      exact yields_entries_cons (isMerge_str ..)
        (yields_entry_known hkey hv hvalue hlookup hdoneHere) hyields

/-- No key shows a name that is not among the names that are shown. -/
theorem any_sameKey_shows {fields : List (String × Data)}
    {entries : List (Yaml.Node × Yaml.Node)} {name : String} {style : Yaml.ScalarStyle} {line : Nat}
    (h : Data.showsFields fields entries = true) (hname : name ∉ fields.map (·.1)) :
    (entries.map (·.1)).any (sameKey (.scalar Tag.str name style line)) = false := by
  induction fields generalizing entries with
  | nil =>
    cases entries with
    | nil => rfl
    | cons e rest => cases h
  | cons f fields ih =>
    obtain ⟨style', line', v, rest, rfl, -, hrest⟩ := showsFields_cons h
    rw [List.map_cons, List.mem_cons, not_or] at hname
    obtain ⟨hne, hname⟩ := hname
    rw [List.map_cons, List.any_cons, ih hrest hname, Bool.or_false]
    simpa [sameKey] using hne

/-- Keys that show names are as different as these. -/
theorem hasTwins_shows {fields : List (String × Data)} {entries : List (Yaml.Node × Yaml.Node)}
    (h : Data.showsFields fields entries = true) (hnodup : (fields.map (·.1)).Nodup) :
    hasTwins (entries.map (·.1)) = false := by
  induction fields generalizing entries with
  | nil =>
    cases entries with
    | nil => rfl
    | cons e rest => cases h
  | cons f fields ih =>
    obtain ⟨hfresh, hnodup⟩ := List.nodup_cons.mp hnodup
    obtain ⟨style, line, v, rest, rfl, -, hrest⟩ := showsFields_cons h
    rw [List.map_cons, hasTwins, any_sameKey_shows hrest hfresh, ih hrest hnodup]
    rfl

/-- No key that shows a name stands for other mappings. -/
theorem isMerge_shows {fields : List (String × Data)} {entries : List (Yaml.Node × Yaml.Node)}
    (h : Data.showsFields fields entries = true) :
    entries.filter (fun e => isMerge e.1) = [] := by
  induction fields generalizing entries with
  | nil =>
    cases entries with
    | nil => rfl
    | cons e rest => cases h
  | cons f fields ih =>
    obtain ⟨style, line, v, rest, rfl, -, hrest⟩ := showsFields_cons h
    rw [List.filter_cons, isMerge_str, ih hrest]
    rfl

/-- A record that shows fields is read as what they hold, those apart that are not asked for. -/
theorem yamlFields_shows {read : CodeReader} {known : List (String × Slot)}
    {cs : List (String × Content)} {line : Nat} {entries : List (Yaml.Node × Yaml.Node)}
    (hshow : Data.showsFields (cs.map writtenField) entries = true)
    (hslots : ∀ c ∈ cs, ∀ slot, known.lookup c.1 = some slot → slot = c.2.slot)
    (hread : ∀ c ∈ cs, ∀ e ∈ entries, ReadsAt read e.2 c.2)
    (hnodup : (cs.map (·.1)).Nodup) :
    yamlFields doc read known (.mapping Tag.map entries line) =
      .ok ((asked known cs).foldl Record.take {}) := by
  have hnames : ((cs.map writtenField).map (·.1)).Nodup := by
    rw [List.map_map]
    exact hnodup
  obtain ⟨done, hentries⟩ : ∃ done, Yields (yamlEntries doc read known [] entries { draft := {} })
      { draft := { record := (asked known cs).foldl Record.take {} }, done } :=
    yields_entries hshow hslots hread hnodup (fun _ _ => List.not_mem_nil)
  -- without merges the fuel of a record is never used
  have hrecord : Yields (yamlRecord doc read known (doc.root.size + 1) [] entries {} none)
      ({ record := (asked known cs).foldl Record.take {} }, none) := by
    rw [yamlRecord, hasTwins_shows hshow hnames]
    refine hentries.bind ?_
    rw [isMerge_shows hshow]
    exact Yields.pure _
  have hnode : (Data.record (cs.map writtenField)).shows
      (.mapping Tag.map entries line) = true := by
    rw [Data.shows, hshow]
    rfl
  have hdraft : Yields (yamlFields.draft doc read known (.mapping Tag.map entries line))
      { record := (asked known cs).foldl Record.take {} } :=
    (yields_enter hnode).bind (hrecord.bind (Yields.pure _))
  obtain ⟨v, -, hrun⟩ := hdraft {} rfl
  rw [yamlFields, hrun]
  rfl

/-! ## §5. Instructions. -/

/-- Whether the instructions of a code are read back, parameters filled in, from all nodes that show
    them and are no larger than the fuel. -/
def ReadsItems (doc : Document) (code : Code) : Prop :=
  ∀ (fuel k : Nat) (items : List Yaml.Node),
    Data.showsAll (Op.encodeAll yamlEncoding code) items = true →
    Yaml.Node.sizeAll items ≤ fuel →
    yamlItems doc (ofYamlNode doc fuel) k items = .ok code.filled

/-- Code is read back from a node that shows it. -/
theorem ReadsItems.node {fuel : Nat} {code : Code} (h : ReadsItems doc code)
    (hshow : (code.encode yamlEncoding).shows n = true) (hfuel : n.size ≤ fuel) :
    ofYamlNode doc fuel n = .ok code.filled := by
  obtain ⟨items, line, rfl, hitems⟩ := Data.shows_list hshow
  rw [Yaml.Node.size] at hfuel
  obtain ⟨fuel, rfl⟩ : ∃ m, fuel = m + 1 := ⟨fuel - 1, by omega⟩
  rw [ofYamlNode]
  exact h fuel 0 items hitems (Nat.le_of_succ_le_succ hfuel)

theorem size_le_of_mem {e : Yaml.Node × Yaml.Node} {entries : List (Yaml.Node × Yaml.Node)}
    (h : e ∈ entries) : e.2.size ≤ Yaml.Node.sizeEntries entries := by
  induction entries with
  | nil => cases h
  | cons e' rest ih =>
    rw [Yaml.Node.sizeEntries]
    rcases List.mem_cons.mp h with rfl | h
    · omega
    · have := ih h
      omega

/-- The first reading asks for the command alone. -/
theorem asked_headSlots (o : Op) :
    asked headSlots o.contents = [("command", .text o.command)] := by
  cases o <;>
    simp [asked, headSlots, Op.contents, Op.fields, Op.command, List.lookup_cons, Content.filled]

theorem headSlots_contents (o : Op) : ∀ c ∈ o.contents, ∀ slot,
    headSlots.lookup c.1 = some slot → slot = c.2.slot := by
  cases o <;> simp [headSlots, Op.contents, Op.fields, List.lookup_cons, Content.slot, eq_comm]

/-- The second reading asks for every field. -/
theorem lookup_slots {o : Op} (h : o.isProper = true) : ∀ c ∈ o.contents,
    (slots o.command).lookup c.1 = some c.2.slot := by
  rw [← Op.contents_slots h]
  cases o <;> simp [Op.contents, Op.fields, List.lookup_cons, Content.slot]

theorem asked_slots {o : Op} (h : o.isProper = true) :
    asked (slots o.command) o.contents = o.filled.contents := by
  have hall : o.contents.filter (fun c => ((slots o.command).lookup c.1).isSome) = o.contents := by
    rw [List.filter_eq_self]
    intro c hc
    rw [lookup_slots h c hc]
    rfl
  rw [asked, hall, Op.filled_contents]

/-- An instruction is read back from its record if the code inside it is. -/
theorem yamlItem_shows {fuel : Nat} (k : Nat) {o : Op} (h : o.isProper = true)
    (hinside : o.Inside (ReadsItems doc)) (hshow : (o.encode yamlEncoding).shows n = true)
    (hfuel : n.size ≤ fuel) : yamlItem doc (ofYamlNode doc fuel) k n = .ok o.filled := by
  rw [Op.encode_eq] at hshow
  obtain ⟨entries, line, rfl, hentries⟩ := Data.shows_record hshow
  rw [Yaml.Node.size] at hfuel
  -- the nodes in the record are smaller than the record, so the fuel is enough for them too
  have hread : ∀ c ∈ o.contents, ∀ e ∈ entries, ReadsAt (ofYamlNode doc fuel) e.2 c.2 := by
    intro c hc e he inner hcode hvalue
    have hsize := size_le_of_mem he
    exact (hinside c hc inner hcode).node hvalue (by omega)
  have hhead : yamlFields doc (ofYamlNode doc fuel) headSlots (.mapping Tag.map entries line) =
      .ok _ := yamlFields_shows hentries (headSlots_contents o) hread o.contents_nodup
  have hall : yamlFields doc (ofYamlNode doc fuel) (slots o.command)
      (.mapping Tag.map entries line) = .ok _ :=
    yamlFields_shows hentries (fun c hc slot hslot => by
      rw [lookup_slots h c hc] at hslot
      exact (Option.some.inj hslot).symm) hread o.contents_nodup
  -- what the first reading finds is the command, and what the second one finds is everything
  rw [asked_headSlots] at hhead
  rw [asked_slots h] at hall
  have hcommand : ([("command", Content.text o.command)].foldl Record.take {}).text "command" =
      o.command := rfl
  have hnonempty : ¬o.command.isEmpty = true := by
    rw [String.isEmpty_iff]
    exact Op.command_ne_empty h
  have hop := Record.op_take (Op.filled_isProper h) (List.Perm.refl _)
  rw [Op.filled_command] at hop
  rw [yamlItem, hhead]
  show (if (Record.text _ "command").isEmpty then _ else _) = _
  rw [hcommand, if_neg hnonempty, hall]
  exact congrArg Except.ok hop

/-- Proper code is read back from its records. -/
theorem Proper.readsItems (doc : Document) {code : Code} (h : code.Proper) :
    ReadsItems doc code := by
  refine h.holds fun code hops => ?_
  intro fuel k items hshow hfuel
  induction code generalizing k items with
  | nil =>
    cases items with
    | nil => rfl
    | cons n rest => cases hshow
  | cons o rest ih =>
    obtain ⟨⟨hproper, hinside⟩, hrest⟩ := List.forall_mem_cons.mp hops
    cases items with
    | nil => cases hshow
    | cons n ns =>
      rw [Op.encodeAll, Data.showsAll, Bool.and_eq_true] at hshow
      rw [Yaml.Node.sizeAll] at hfuel
      rw [yamlItems, yamlItem_shows k hproper hinside hshow.1 (by omega),
        ih hrest (k + 1) ns hshow.2 (by omega)]
      rfl

/-- Code is read back from its document if the document shows what was written. -/
theorem ofYaml_toYaml {code : Code} (h : code.Proper)
    (hkept : (code.encode yamlEncoding).Kept) :
    ofYaml (Text.bytesOf code.toYaml) = .ok (some code.filled) := by
  obtain ⟨doc, hdoc, hshow⟩ := hkept
  have hroot : ofYamlNode doc (doc.root.size + 1) doc.root = .ok code.filled :=
    (h.readsItems doc).node hshow (Nat.le_succ _)
  obtain ⟨items, line, hlist, -⟩ := Data.shows_list hshow
  have hcode : yamlCode (ofYamlNode doc (doc.root.size + 1)) doc.root =
      .ok (.value code.filled) := by
    rw [hlist] at hroot ⊢
    show Reading.value <$> ofYamlNode doc _ _ = _
    rw [hroot]
    rfl
  unfold ofYaml toYaml
  rw [hdoc]
  show Except.mapError _ (yamlCode (ofYamlNode doc (doc.root.size + 1)) doc.root >>= _) = _
  rw [hcode]
  rfl

end Code

end Resumable
