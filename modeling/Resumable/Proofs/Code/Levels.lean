/-
  Resumable.Proofs.Code.Levels — how deep code is nested.

  The lists and records around the innermost part of a code are counted by an encoding of its own,
  which writes a text as 0 and a list as one more than the most of its items.  What one encoding
  writes is related to what another one writes as soon as each kind of value is.

  Main results:
    * `kept_json` — JSON gives back every code that is not nested too deep;
    * `kept_cbor` — CBOR gives back every code that is within its limits.
-/
import Mathlib.Data.List.Forall2
import Resumable.Code.Cbor
import Resumable.Code.Json
import Resumable.Proofs.Cbor.Items
import Resumable.Proofs.Code.Records
import Resumable.Proofs.Json.Values
import Resumable.Proofs.Support

namespace Resumable

open List (Forall₂)

/-! ## §1. Encodings side by side. -/

/-- Two encodings whose values are related, kind by kind. -/
structure Encoding.Related {α β : Type} (R : α → β → Prop) (w : Encoding α) (w' : Encoding β) :
    Prop where
  text : ∀ s, R (w.text s) (w'.text s)
  flag : ∀ b, R (w.flag b) (w'.flag b)
  missing : R w.missing w'.missing
  list : ∀ {as bs}, Forall₂ R as bs → R (w.list as) (w'.list bs)
  record : ∀ {fs gs}, Forall₂ (fun f g => f.1 = g.1 ∧ R f.2 g.2) fs gs →
    R (w.record fs) (w'.record gs)

namespace Encoding.Related

variable {α β : Type} {R : α → β → Prop} {w : Encoding α} {w' : Encoding β}

/-- Contents are written as related values if the code among them is. -/
theorem value (h : Related R w w') {c : Content}
    (hcode : ∀ inner, c = .code inner → R (inner.encode w) (inner.encode w')) :
    R (c.value w) (c.value w') := by
  cases c with
  | text s => exact h.text s
  | flag b => exact h.flag b
  | code inner => exact hcode inner rfl
  | names xs =>
    cases xs with
    | none => exact h.missing
    | some xs =>
      refine h.list ?_
      rw [List.forall₂_map_left_iff, List.forall₂_map_right_iff]
      exact List.forall₂_same.mpr fun x _ => h.text x

/-- Code is written as related values. -/
theorem encode (h : Related R w w') (code : Code) : R (code.encode w) (code.encode w') := by
  have inherited : Code.Inherited fun code => R (code.encode w) (code.encode w') := by
    intro code hinside
    refine h.list ?_
    -- one instruction after the other; the code inside each is related already
    induction code with
    | nil => exact .nil
    | cons o rest ih =>
      obtain ⟨ho, hrest⟩ := List.forall_mem_cons.mp hinside
      refine .cons ?_ (ih hrest)
      rw [Op.encode_eq, Op.encode_eq]
      refine h.record ?_
      rw [List.forall₂_map_left_iff, List.forall₂_map_right_iff]
      exact List.forall₂_same.mpr fun c hc => ⟨rfl, h.value (ho c hc)⟩
  exact inherited.holds code

end Encoding.Related

/-! ## §2. Extents. -/

/-- What a reader with limits asks of a value: how many lists and records there are around its
    innermost part, and whether all texts and lists are short enough. -/
structure Extent where
  levels : Nat
  isShort : Bool

namespace Extent

/-- The most levels of some values. -/
def most (es : List Extent) : Nat := (es.map levels).foldr max 0

theorem levels_le_most {e : Extent} {es : List Extent} (h : e ∈ es) : e.levels ≤ most es := by
  induction es with
  | nil => cases h
  | cons e' es ih =>
    show e.levels ≤ max e'.levels (most es)
    rcases List.mem_cons.mp h with rfl | h
    · exact Nat.le_max_left _ _
    · exact Nat.le_trans (ih h) (Nat.le_max_right _ _)

/-- A text. -/
def ofText (s : String) : Extent where
  levels := 0
  isShort := (Text.bytesOf s).length < 2 ^ 64

/-- A list or a record of some values. -/
def around (es : List Extent) : Extent where
  levels := most es + 1
  isShort := es.length ≤ Cbor.longest && es.all isShort

/-- Extents as an encoding of instructions.  The names of fields are texts. -/
def encoding : Encoding Extent where
  text := ofText
  flag _ := { levels := 0, isShort := true }
  missing := { levels := 0, isShort := true }
  list := around
  record fields :=
    let inside := around (fields.map (·.2))
    { inside with isShort := inside.isShort && fields.all (fun f => (ofText f.1).isShort) }

end Extent

/-- How many lists and records are around the innermost part of a code, its own list included. -/
def Code.levels (code : Code) : Nat := (code.encode Extent.encoding).levels

/-- Whether no text and no list of a code is too long for CBOR. -/
def Code.isShort (code : Code) : Bool := (code.encode Extent.encoding).isShort

/-! ## §3. Formats. -/

theorem Json.Value.Within.mono {v : Json.Value} {m n : Nat} (h : v.Within m) (hmn : m ≤ n) :
    v.Within n := by
  induction h generalizing n with
  | null => exact .null
  | bool b => exact .bool b
  | string s => exact .string s
  | array h ih =>
    obtain ⟨n, rfl⟩ : ∃ k, n = k + 1 := ⟨n - 1, by omega⟩
    exact .array fun v hv => ih v hv (Nat.le_of_succ_le_succ hmn)
  | object h ih =>
    obtain ⟨n, rfl⟩ : ∃ k, n = k + 1 := ⟨n - 1, by omega⟩
    exact .object fun f hf => ih f hf (Nat.le_of_succ_le_succ hmn)

theorem Cbor.Item.Within.mono {i : Cbor.Item} {m n : Nat} (h : i.Within m) (hmn : m ≤ n) :
    i.Within n := by
  induction h generalizing n with
  | text s short => exact .text s short
  | bool b => exact .bool b
  | null => exact .null
  | array short h ih =>
    obtain ⟨n, rfl⟩ : ∃ k, n = k + 1 := ⟨n - 1, by omega⟩
    exact .array short fun i hi => ih i hi (Nat.le_of_succ_le_succ hmn)
  | map short _ _ ihk ihv =>
    obtain ⟨n, rfl⟩ : ∃ k, n = k + 1 := ⟨n - 1, by omega⟩
    exact .map short (fun e he => ihk e he (Nat.le_of_succ_le_succ hmn))
      fun e he => ihv e he (Nat.le_of_succ_le_succ hmn)

namespace Code

open Json (Value)
open Cbor (Item)

/-- A JSON value is within as many levels as are counted. -/
theorem json_related : Encoding.Related (fun (v : Value) e => v.Within e.levels) jsonEncoding
    Extent.encoding where
  text s := .string s
  flag b := .bool b
  missing := .null
  list h := .array fun v hv => by
    obtain ⟨e, he, hve⟩ := exists_related h v hv
    exact hve.mono (Extent.levels_le_most he)
  record h := .object fun f hf => by
    obtain ⟨g, hg, -, hfg⟩ := exists_related h f hf
    exact hfg.mono (Extent.levels_le_most (List.mem_map_of_mem hg))

/-- A CBOR item is within as many levels as are counted if it is short. -/
theorem cbor_related : Encoding.Related
    (fun (i : Item) e => e.isShort = true → i.Within e.levels) cborEncoding Extent.encoding where
  text s h := .text s (of_decide_eq_true h)
  flag b _ := .bool b
  missing _ := .null
  list h hshort := by
    obtain ⟨hlength, hall⟩ := Bool.and_eq_true_iff.mp hshort
    refine .array (h.length_eq ▸ of_decide_eq_true hlength) fun i hi => ?_
    obtain ⟨e, he, hie⟩ := exists_related h i hi
    exact (hie (List.all_eq_true.mp hall e he)).mono (Extent.levels_le_most he)
  record {fs gs} h hshort := by
    obtain ⟨hinside, hnames⟩ := Bool.and_eq_true_iff.mp hshort
    obtain ⟨hlength, hall⟩ := Bool.and_eq_true_iff.mp hinside
    have hfew : (fs.map (fun f => (Item.ofText f.1, f.2))).length ≤ Cbor.longest := by
      rw [List.length_map, h.length_eq, ← List.length_map (f := (·.2))]
      exact of_decide_eq_true hlength
    refine .map hfew (fun e he => ?_) fun e he => ?_
    · obtain ⟨f, hf, rfl⟩ := List.mem_map.mp he
      obtain ⟨g, hg, hname, -⟩ := exists_related h f hf
      have hshort := List.all_eq_true.mp hnames g hg
      rw [← hname] at hshort
      exact .text f.1 (of_decide_eq_true hshort)
    · obtain ⟨f, hf, rfl⟩ := List.mem_map.mp he
      obtain ⟨g, hg, -, hfg⟩ := exists_related h f hf
      have hmem : g.2 ∈ gs.map (·.2) := List.mem_map_of_mem hg
      exact (hfg (List.all_eq_true.mp hall _ hmem)).mono (Extent.levels_le_most hmem)

/-- JSON gives back what is nested no deeper than its reader goes. -/
theorem kept_json {code : Code} (h : code.levels ≤ Json.deepest) :
    (code.encode jsonEncoding).Kept :=
  ((json_related.encode code).mono h).kept

/-- CBOR gives back what is within the limits of its reader. -/
theorem kept_cbor {code : Code} (h : code.levels ≤ Cbor.deepest) (hshort : code.isShort = true) :
    (code.encode cborEncoding).Kept :=
  ((cbor_related.encode code hshort).mono h).kept

end Code

end Resumable
