/-
  Resumable.Proofs.Code.Records — what the record of an instruction holds.

  One list of contents says what every format writes for an instruction, and putting the contents
  into a record what every format has to read.  The order in which they are put there makes no
  difference, since no field occurs twice.

  Main results:
    * `Op.encode_eq`         — a record is written from the contents of its instruction;
    * `Record.op_take`       — the contents of an instruction, in any order, make it up;
    * `Code.Inherited.holds` — what code inherits from the code inside it holds of all code.
-/
import Mathlib.Data.List.Nodup
import Resumable.Code.Encoding
import Resumable.Proofs.Code.Commands

namespace Resumable

/-! ## §1. Contents. -/

/-- What a field of an instruction holds. -/
inductive Content where
  | text (s : String)
  | flag (b : Bool)
  | code (c : Code)
  | names (xs : Option (List String))

namespace Content

/-- The slot that takes the content. -/
def slot : Content → Slot
  | text _ => .text
  | flag _ => .flag
  | code _ => .code
  | names _ => .names

/-- The content as it is written. -/
def value {β : Type} (w : Encoding β) : Content → β
  | text s => w.text s
  | flag b => w.flag b
  | code c => c.encode w
  | names xs => (xs.map (fun xs => w.list (xs.map w.text))).getD w.missing

end Content

namespace Op

/-- The fields of an instruction, its command apart. -/
def fields : Op → List (String × Content)
  | leaf _ code async => [("code", .text code), ("async", .flag async)]
  | branch cond yes no async =>
      [("condCode", .text cond), ("thenCode", .code yes), ("elseCode", .code no),
        ("async", .flag async)]
  | loop cond step body async =>
      [("condCode", .code cond), ("stepCode", .code step), ("bodyCode", .code body),
        ("async", .flag async)]
  | defun name args code async =>
      [("name", .text name), ("code", .code code), ("args", .names args), ("async", .flag async)]

/-- All fields of an instruction. -/
def contents (o : Op) : List (String × Content) := ("command", .text o.command) :: o.fields

/-- A record is written from the contents of its instruction. -/
theorem encode_eq {β : Type} (w : Encoding β) (o : Op) :
    o.encode w = w.record (o.contents.map (fun c => (c.1, c.2.value w))) := by
  cases o with
  | defun name args code async => cases args <;> rw [encode] <;> rfl
  | _ =>
    rw [encode]
    rfl

/-- The names of the fields, the command apart. -/
def fieldNames : List String :=
  ["code", "async", "condCode", "thenCode", "elseCode", "stepCode", "bodyCode", "name", "args"]

theorem mem_fieldNames {o : Op} {c : String × Content} (h : c ∈ o.fields) : c.1 ∈ fieldNames := by
  cases o <;> simp only [fields, List.mem_cons, List.not_mem_nil, or_false] at h <;>
    rcases h with rfl | rfl | rfl | rfl <;> simp [fieldNames]

theorem contents_nodup (o : Op) : (o.contents.map (·.1)).Nodup := by
  cases o <;> simp [contents, fields]

/-- The command of an instruction is not empty. -/
theorem command_ne_empty {o : Op} (h : o.isProper = true) : o.command ≠ "" := by
  cases o with
  | leaf command code async =>
    simp only [isProper, Bool.and_eq_true, bne_iff_ne] at h
    exact h.1.1.1
  | _ => simp [command]

/-- A leaf is read as a leaf. -/
theorem slots_leaf {command code : String} {async : Bool}
    (h : (leaf command code async).isProper = true) :
    slots command = [("command", .text), ("code", .text), ("async", .flag)] ∧
      ∀ r : Record, r.op command = .leaf command (r.text "code") r.async := by
  simp only [isProper, Bool.and_eq_true, bne_iff_ne] at h
  obtain ⟨⟨-, hif⟩, hfor⟩ := h.1
  simp [slots, Record.op, hif, hfor, h.2]

/-- The command calls for the slots of the contents. -/
theorem contents_slots {o : Op} (h : o.isProper = true) :
    o.contents.map (fun c => (c.1, c.2.slot)) = slots o.command := by
  cases o with
  | leaf command code async => exact (slots_leaf h).1.symm
  | _ => rfl

/-- Every content finds its slot under its name. -/
theorem find?_slots {o : Op} (h : o.isProper = true) : ∀ c ∈ o.contents,
    (slots o.command).find? (fun f => f.1 == c.1) = some (c.1, c.2.slot) := by
  rw [← contents_slots h]
  cases o <;> simp [contents, fields, Content.slot]

end Op

/-! ## §2. Records. -/

namespace Record

/-- Puts a content into a record. -/
def take (r : Record) (c : String × Content) : Record :=
  match c.2 with
  | .text s => r.setText c.1 s
  | .flag b => { r with async := b }
  | .code code => r.setCode c.1 code
  | .names xs => { r with args := xs }

/-- What one of the contents puts into a record is there in the end if none of them puts anything
    else in its place. -/
theorem foldl_take {α : Type} (f : Record → α) {a : α} {cs : List (String × Content)} (r : Record)
    (hset : ∃ c ∈ cs, ∀ r : Record, f (r.take c) = a)
    (hkeep : ∀ c ∈ cs, (∀ r : Record, f (r.take c) = a) ∨ ∀ r : Record, f (r.take c) = f r) :
    f (cs.foldl take r) = a := by
  -- once the value is there, it stays
  have stays : ∀ cs : List (String × Content),
      (∀ c ∈ cs, (∀ r : Record, f (r.take c) = a) ∨ ∀ r : Record, f (r.take c) = f r) →
      ∀ r : Record, f r = a → f (cs.foldl take r) = a := by
    intro cs hkeep
    induction cs with
    | nil => exact fun _ hr => hr
    | cons c cs ih =>
      intro r hr
      obtain ⟨hc, hkeep⟩ := List.forall_mem_cons.mp hkeep
      refine ih hkeep _ ?_
      rcases hc with hc | hc
      · exact hc r
      · rw [hc, hr]
  induction cs generalizing r with
  | nil =>
    obtain ⟨c, hc, -⟩ := hset
    cases hc
  | cons c cs ih =>
    obtain ⟨-, hrest⟩ := List.forall_mem_cons.mp hkeep
    obtain ⟨c', hc', hset⟩ := hset
    rcases List.mem_cons.mp hc' with rfl | hc'
    · exact stays cs hrest _ (hset r)
    · exact ih _ ⟨c', hc', hset⟩ hrest

theorem text_take_of_ne {r : Record} {c : String × Content} {name : String} (h : c.1 ≠ name) :
    (r.take c).text name = r.text name := by
  obtain ⟨field, s | b | inner | xs⟩ := c
  · simp [take, setText, text, List.lookup_cons, beq_eq_false_iff_ne.mpr h.symm]
  · rfl
  · rfl
  · rfl

theorem code_take_of_ne {r : Record} {c : String × Content} {name : String} (h : c.1 ≠ name) :
    (r.take c).code name = r.code name := by
  obtain ⟨field, s | b | inner | xs⟩ := c
  · rfl
  · rfl
  · simp [take, setCode, code, List.lookup_cons, beq_eq_false_iff_ne.mpr h.symm]
  · rfl

section

variable {cs : List (String × Content)}

theorem text_foldl_take (hnodup : (cs.map (·.1)).Nodup) {name s : String}
    (hmem : (name, .text s) ∈ cs) (r : Record) : (cs.foldl take r).text name = s := by
  have hset : ∀ r : Record, (r.take (name, .text s)).text name = s := fun r => by
    simp [take, setText, text]
  refine foldl_take (·.text name) r ⟨_, hmem, hset⟩ fun c hc => ?_
  by_cases hname : c.1 = name
  · exact .inl (List.inj_on_of_nodup_map hnodup hc hmem hname ▸ hset)
  · exact .inr fun _ => text_take_of_ne hname

theorem code_foldl_take (hnodup : (cs.map (·.1)).Nodup) {name : String} {inner : Code}
    (hmem : (name, .code inner) ∈ cs) (r : Record) : (cs.foldl take r).code name = inner := by
  have hset : ∀ r : Record, (r.take (name, .code inner)).code name = inner := fun r => by
    simp [take, setCode, code]
  refine foldl_take (·.code name) r ⟨_, hmem, hset⟩ fun c hc => ?_
  by_cases hname : c.1 = name
  · exact .inl (List.inj_on_of_nodup_map hnodup hc hmem hname ▸ hset)
  · exact .inr fun _ => code_take_of_ne hname

theorem async_foldl_take {b : Bool} (hmem : ∃ c ∈ cs, c.2 = .flag b)
    (hall : ∀ c ∈ cs, ∀ b', c.2 = .flag b' → b' = b) (r : Record) :
    (cs.foldl take r).async = b := by
  obtain ⟨⟨field, _⟩, hc, rfl⟩ := hmem
  refine foldl_take (·.async) r ⟨_, hc, fun _ => rfl⟩ fun c hc => ?_
  obtain ⟨field, s | b' | inner | xs⟩ := c
  · exact .inr fun _ => rfl
  · exact .inl fun _ => hall _ hc b' rfl
  · exact .inr fun _ => rfl
  · exact .inr fun _ => rfl

theorem args_foldl_take {xs : Option (List String)} (hmem : ∃ c ∈ cs, c.2 = .names xs)
    (hall : ∀ c ∈ cs, ∀ xs', c.2 = .names xs' → xs' = xs) (r : Record) :
    (cs.foldl take r).args = xs := by
  obtain ⟨⟨field, _⟩, hc, rfl⟩ := hmem
  refine foldl_take (·.args) r ⟨_, hc, fun _ => rfl⟩ fun c hc => ?_
  obtain ⟨field, s | b | inner | xs'⟩ := c
  · exact .inr fun _ => rfl
  · exact .inr fun _ => rfl
  · exact .inr fun _ => rfl
  · exact .inl fun _ => hall _ hc xs' rfl

end

/-- The contents of an instruction, in any order, make up the instruction. -/
theorem op_take {o : Op} {cs : List (String × Content)} (h : o.isProper = true)
    (hperm : cs.Perm o.contents) : (cs.foldl take {}).op o.command = o := by
  have hnodup : (cs.map (·.1)).Nodup := (hperm.map _).nodup_iff.mpr o.contents_nodup
  -- each field of the instruction is looked up in the record that the fold leaves
  have text : ∀ name s, (name, .text s) ∈ o.contents → (cs.foldl take {}).text name = s :=
    fun _ _ hmem => text_foldl_take hnodup (hperm.mem_iff.mpr hmem) {}
  have code : ∀ name inner, (name, .code inner) ∈ o.contents →
      (cs.foldl take {}).code name = inner :=
    fun _ _ hmem => code_foldl_take hnodup (hperm.mem_iff.mpr hmem) {}
  have async : (cs.foldl take {}).async = o.suspends := by
    refine async_foldl_take ?_ (fun c hc => ?_) {}
    · refine ⟨("async", .flag o.suspends), hperm.mem_iff.mpr ?_, rfl⟩
      cases o <;> simp [Op.contents, Op.fields, Op.suspends]
    · revert hc c
      simp only [hperm.mem_iff]
      cases o <;> simp [Op.contents, Op.fields, Op.suspends]
  cases o with
  | leaf command payload async' =>
    rw [Op.command, (Op.slots_leaf h).2, text "code" payload (by simp [Op.contents, Op.fields]),
      async]
    rfl
  | branch cond yes no async' =>
    show Op.branch _ _ _ _ = _
    rw [text "condCode" cond (by simp [Op.contents, Op.fields]),
      code "thenCode" yes (by simp [Op.contents, Op.fields]),
      code "elseCode" no (by simp [Op.contents, Op.fields]), async]
    rfl
  | loop cond step body async' =>
    show Op.loop _ _ _ _ = _
    rw [code "condCode" cond (by simp [Op.contents, Op.fields]),
      code "stepCode" step (by simp [Op.contents, Op.fields]),
      code "bodyCode" body (by simp [Op.contents, Op.fields]), async]
    rfl
  | defun name args inner async' =>
    have hargs : (cs.foldl take {}).args = args := by
      refine args_foldl_take ⟨("args", .names args), hperm.mem_iff.mpr ?_, rfl⟩ (fun c hc => ?_) {}
      · simp [Op.contents, Op.fields]
      · revert hc c
        simp only [hperm.mem_iff]
        simp [Op.contents, Op.fields]
    show Op.defun _ _ _ _ = _
    rw [text "name" name (by simp [Op.contents, Op.fields]),
      code "code" inner (by simp [Op.contents, Op.fields]), async, hargs]
    rfl

end Record

/-! ## §3. Code inside code. -/

namespace Op

/-- Whether a property holds of all code that is a field of an instruction. -/
def Inside (P : Code → Prop) (o : Op) : Prop :=
  ∀ c ∈ o.contents, ∀ inner, c.2 = .code inner → P inner

variable {P : Code → Prop}

theorem inside_leaf (command code : String) (async : Bool) :
    (leaf command code async).Inside P := by
  simp [Inside, contents, fields]

theorem inside_branch {cond : String} {yes no : Code} {async : Bool} :
    (branch cond yes no async).Inside P ↔ P yes ∧ P no := by
  simp [Inside, contents, fields]

theorem inside_loop {cond step body : Code} {async : Bool} :
    (loop cond step body async).Inside P ↔ P cond ∧ P step ∧ P body := by
  simp [Inside, contents, fields]

theorem inside_defun {name : String} {args : Option (List String)} {code : Code} {async : Bool} :
    (defun name args code async).Inside P ↔ P code := by
  simp [Inside, contents, fields]

end Op

namespace Code

/-- Whether a property holds of a code as soon as it holds of the code inside its instructions. -/
def Inherited (P : Code → Prop) : Prop := ∀ code : Code, (∀ o ∈ code, o.Inside P) → P code

namespace Inherited

variable {P : Code → Prop}

mutual

theorem inside (h : Inherited P) (o : Op) : o.Inside P := by
  cases o with
  | leaf command code async => exact Op.inside_leaf command code async
  | branch cond yes no async =>
    exact Op.inside_branch.mpr ⟨h yes (h.insideAll yes), h no (h.insideAll no)⟩
  | loop cond step body async =>
    have inStep := h step (h.insideAll step)
    have inBody := h body (h.insideAll body)
    exact Op.inside_loop.mpr ⟨h cond (h.insideAll cond), inStep, inBody⟩
  | defun name args code async => exact Op.inside_defun.mpr (h code (h.insideAll code))
termination_by structural o

theorem insideAll (h : Inherited P) (code : Code) : ∀ o ∈ code, o.Inside P := by
  cases code with
  | nil => exact List.forall_mem_nil _
  | cons o rest => exact List.forall_mem_cons.mpr ⟨h.inside o, h.insideAll rest⟩
termination_by structural code

end

/-- It then holds of all code. -/
theorem holds (h : Inherited P) (code : Code) : P code := h code (h.insideAll code)

end Inherited

/-- The code inside an instruction of proper code is proper. -/
theorem proper_inside {o : Op} (h : Proper o.inner) : o.Inside Proper := by
  cases o with
  | leaf command code async => exact Op.inside_leaf command code async
  | branch cond yes no async => exact Op.inside_branch.mpr (proper_append.mp h)
  | loop cond step body async =>
    obtain ⟨hheads, hbody⟩ := proper_append.mp h
    obtain ⟨hcond, hstep⟩ := proper_append.mp hheads
    exact Op.inside_loop.mpr ⟨hcond, hstep, hbody⟩
  | defun name args code async => exact Op.inside_defun.mpr h

theorem proper_of_mem {code : Code} (h : code.Proper) :
    ∀ o ∈ code, o.isProper = true ∧ o.Inside Proper := by
  induction code with
  | nil => exact List.forall_mem_nil _
  | cons o rest ih =>
    obtain ⟨ho, hinner, hrest⟩ := proper_cons.mp h
    exact List.forall_mem_cons.mpr ⟨⟨ho, proper_inside hinner⟩, ih hrest⟩

/-- What proper code inherits holds of all proper code. -/
theorem Proper.holds {P : Code → Prop}
    (step : ∀ code : Code, (∀ o ∈ code, o.isProper = true ∧ o.Inside P) → P code) {code : Code}
    (h : code.Proper) : P code := by
  have inherited : Inherited fun code => code.Proper → P code := by
    intro code ih hcode
    refine step code fun o ho => ?_
    obtain ⟨hproper, hinside⟩ := proper_of_mem hcode o ho
    exact ⟨hproper, fun c hc inner hinner => ih o ho c hc inner hinner
      (hinside c hc inner hinner)⟩
  exact inherited.holds code h

end Code

end Resumable
