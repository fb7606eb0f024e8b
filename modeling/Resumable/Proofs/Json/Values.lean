/-
  Resumable.Proofs.Json.Values — a value is read back from its text.

  A value is written over several lines, with its items and fields indented.  The reader skips
  blanks in front of every piece, so indentation plays no part, and it follows the value piece by
  piece: at each level one more list or object is open, of which it allows `deepest`.

  Main statement: `Value.Within.kept`.
-/
import Resumable.Proofs.Json.Strings

namespace Resumable.Json

open Text (encoded encoded_nil encoded_append)

/-! ## §1. Blanks. -/

/-- A byte that is no blank is where skipping stops. -/
theorem skipBlank_stop {b : UInt8} {bs : Bytes}
    (h : (b == 0x20 || b == 0x09 || b == 0x0A || b == 0x0D) = false) :
    skipBlank (b :: bs) = b :: bs := by
  rw [skipBlank, List.dropWhile_cons]
  exact if_neg (Bool.eq_false_iff.mp h)

theorem skipBlank_blank {b : UInt8} {bs : Bytes}
    (h : (b == 0x20 || b == 0x09 || b == 0x0A || b == 0x0D) = true) :
    skipBlank (b :: bs) = skipBlank bs := by
  rw [skipBlank, List.dropWhile_cons]
  exact if_pos h

/-- A new line is skipped with its indentation. -/
theorem skipBlank_newline (depth : Nat) (bs : Bytes) :
    skipBlank (encoded (newline depth) ++ bs) = skipBlank bs := by
  have spaces : ∀ k, skipBlank (encoded (List.replicate k ' ') ++ bs) = skipBlank bs := by
    intro k
    induction k with
    | zero => rfl
    | succ k ih =>
      have first : encoded (List.replicate (k + 1) ' ') ++ bs =
          0x20 :: (encoded (List.replicate k ' ') ++ bs) := rfl
      rw [first, skipBlank_blank rfl, ih]
  have first : encoded (newline depth) ++ bs =
      0x0A :: (encoded (List.replicate (2 * depth) ' ') ++ bs) := rfl
  rw [first, skipBlank_blank rfl, spaces]

/-! ## §2. Values. -/

namespace Value

/-- A value without numbers, with at most so many lists and objects around any part of it. -/
inductive Within : Nat → Value → Prop
  | null {levels : Nat} : Within levels null
  | bool {levels : Nat} (b : Bool) : Within levels (bool b)
  | string {levels : Nat} (s : String) : Within levels (string s)
  | array {levels : Nat} {items : List Value} (h : ∀ v ∈ items, Within levels v) :
      Within (levels + 1) (array items)
  | object {levels : Nat} {fields : List (String × Value)} (h : ∀ f ∈ fields, Within levels f.2) :
      Within (levels + 1) (object fields)

/-- Every item of a list stands on a line of its own, one step further in than its brackets. -/
theorem write_array (depth : Nat) (v : Value) (vs : List Value) : (array (v :: vs)).write depth =
    '[' :: newline (depth + 1) ++ v.write (depth + 1) ++ writeItems (depth + 1) vs ++
      newline depth ++ [']'] := rfl

theorem write_object (depth : Nat) (k : String) (v : Value) (fs : List (String × Value)) :
    (object ((k, v) :: fs)).write depth =
      '{' :: newline (depth + 1) ++ quote k ++ [':', ' '] ++ v.write (depth + 1) ++
        writeFields (depth + 1) fs ++ newline depth ++ ['}'] := rfl

/-- The bytes of a value that starts at a depth. -/
def bytes (depth : Nat) (v : Value) : Bytes := encoded (v.write depth)

/-- A value starts with a byte of its own: no blank, and nothing that ends a list or object. -/
theorem Within.starts {levels : Nat} {v : Value} (h : v.Within levels) (depth : Nat) :
    ∃ b bs, v.bytes depth = b :: bs ∧ b ∈ ([0x6E, 0x74, 0x66, 0x22, 0x5B, 0x7B] : List UInt8) := by
  unfold bytes
  cases h with
  | null => exact ⟨_, _, rfl, by decide⟩
  | bool b => cases b <;> exact ⟨_, _, rfl, by decide⟩
  | string s => exact ⟨_, _, encoded_quote s, by decide⟩
  | @array _ items _ => cases items <;> exact ⟨_, _, rfl, by decide⟩
  | @object _ fields _ =>
    match fields with
    | [] | (_, _) :: _ => exact ⟨_, _, rfl, by decide⟩

/-- No blank is skipped in front of a value. -/
theorem Within.skipBlank_eq {levels : Nat} {v : Value} (h : v.Within levels) (depth : Nat)
    (rest : Bytes) : skipBlank (v.bytes depth ++ rest) = v.bytes depth ++ rest := by
  obtain ⟨b, bs, hv, hb⟩ := h.starts depth
  rw [hv, List.cons_append]
  have own : ∀ b ∈ ([0x6E, 0x74, 0x66, 0x22, 0x5B, 0x7B] : List UInt8),
      (b == 0x20 || b == 0x09 || b == 0x0A || b == 0x0D) = false := by decide +kernel
  exact skipBlank_stop (own b hb)

/-- Fuel for a value is fuel for a step: it has at least one byte. -/
theorem Within.exists_fuel {levels indent fuel : Nat} {v : Value} (h : v.Within levels)
    (hf : 2 * (v.bytes indent).length ≤ fuel) : ∃ m, fuel = m + 1 := by
  obtain ⟨b, bs, hv, -⟩ := h.starts indent
  rw [hv, List.length_cons] at hf
  exact ⟨fuel - 1, by omega⟩

end Value

/-- No blank is skipped in front of a string. -/
theorem skipBlank_quote (s : String) (rest : Bytes) :
    skipBlank (encoded (quote s) ++ rest) = encoded (quote s) ++ rest := by
  rw [encoded_quote]
  exact skipBlank_stop rfl

open Value (Within)

/-! ## §3. Lists and objects. -/

section

variable {levels fuel depth indent outer : Nat} {bs rest : Bytes}

/-- A value is read back wherever it stands, blanks in front of it skipped, as long as there are
    levels left for it. -/
def Reads (levels : Nat) (v : Value) : Prop :=
  ∀ {indent fuel depth : Nat} {bs : Bytes} (rest : Bytes), depth + levels ≤ deepest →
    2 * (v.bytes indent).length ≤ fuel → skipBlank bs = v.bytes indent ++ rest →
    value? fuel depth bs = some (v, rest)

/-- A list that is not empty is read item by item. -/
theorem value?_array {inner : Bytes} (hd : depth < deepest) (h : skipBlank bs = 0x5B :: rest)
    (hrest : skipBlank rest = inner) (hfirst : inner.head? ≠ some 0x5D) :
    value? (fuel + 1) depth bs = items? fuel (depth + 1) inner [] := by
  rw [value?, h]
  refine (if_neg (show ¬ depth ≥ deepest by omega)).trans ?_
  rw [hrest]
  split
  · exact absurd rfl hfirst
  · rfl

/-- An object that is not empty is read field by field. -/
theorem value?_object {inner : Bytes} (hd : depth < deepest) (h : skipBlank bs = 0x7B :: rest)
    (hrest : skipBlank rest = inner) (hfirst : inner.head? ≠ some 0x7D) :
    value? (fuel + 1) depth bs = fields? fuel (depth + 1) inner [] := by
  rw [value?, h]
  refine (if_neg (show ¬ depth ≥ deepest by omega)).trans ?_
  rw [hrest]
  split
  · exact absurd rfl hfirst
  · rfl

/-- The items of a list are read back, up to its closing bracket. -/
theorem items?_write (v : Value) (vs : List Value) (read : List Value)
    (hd : depth + levels ≤ deepest) (hv : ∀ w ∈ v :: vs, w.Within levels)
    (hr : ∀ w ∈ v :: vs, Reads levels w)
    (hf : 2 * ((v.bytes indent).length + (encoded (Value.writeItems indent vs)).length) < fuel)
    (hbs : skipBlank bs = v.bytes indent ++ (encoded (Value.writeItems indent vs) ++
      (encoded (newline outer) ++ 0x5D :: rest))) :
    items? fuel depth bs read = some (.array (read.reverse ++ v :: vs), rest) := by
  induction vs generalizing v fuel bs read with
  | nil =>
    obtain ⟨fuel, rfl⟩ : ∃ m, fuel = m + 1 := ⟨fuel - 1, by omega⟩
    have hvalue : value? fuel depth bs = some (v, _) :=
      hr v List.mem_cons_self _ hd (by omega) hbs
    have hclose : skipBlank (encoded (Value.writeItems indent []) ++
        (encoded (newline outer) ++ 0x5D :: rest)) = 0x5D :: rest := by
      rw [Value.writeItems, encoded_nil, List.nil_append, skipBlank_newline]
      exact skipBlank_stop rfl
    rw [items?, hvalue]
    dsimp only
    rw [hclose, List.reverse_cons]
    rfl
  | cons w ws ih =>
    obtain ⟨fuel, rfl⟩ : ∃ m, fuel = m + 1 := ⟨fuel - 1, by omega⟩
    obtain ⟨hv, hws⟩ := List.forall_mem_cons.mp hv
    obtain ⟨hrv, hrws⟩ := List.forall_mem_cons.mp hr
    have hvalue : value? fuel depth bs = some (v, _) := hrv _ hd (by omega) hbs
    have hitems : encoded (Value.writeItems indent (w :: ws)) = 0x2C :: (encoded (newline indent) ++
        (w.bytes indent ++ encoded (Value.writeItems indent ws))) := by
      rw [Value.writeItems, encoded_append, encoded_append]
      exact congrArg (0x2C :: ·) (List.append_assoc _ _ _)
    have hlength := congrArg List.length hitems
    simp only [List.length_cons, List.length_append] at hlength
    rw [items?, hvalue, hitems]
    dsimp only
    rw [List.cons_append, skipBlank_stop rfl]
    refine (ih w (v :: read) hws hrws (by omega) ?_).trans ?_
    · rw [List.append_assoc, skipBlank_newline, List.append_assoc]
      exact (hws w List.mem_cons_self).skipBlank_eq indent _
    · rw [List.reverse_cons, List.append_assoc]
      rfl

/-- What may follow the fields that have been read: another one, or the end of the object. -/
def afterFields? (fuel depth : Nat) (read : List (String × Value)) :
    Bytes → Option (Value × Bytes)
  | 0x2C :: rest => fields? fuel depth rest read
  | 0x7D :: rest => some (.object read.reverse, rest)
  | _ => none

/-- A field is read off the front of an object. -/
theorem fields?_field {k : String} {v : Value} (read : List (String × Value))
    (hd : depth + levels ≤ deepest) (hv : v.Within levels) (hr : Reads levels v)
    (hf : 2 * ((encoded (quote k)).length + (v.bytes indent).length) ≤ fuel)
    (hbs : skipBlank bs = encoded (quote k) ++ 0x3A :: 0x20 :: (v.bytes indent ++ rest)) :
    fields? (fuel + 1) depth bs read =
      afterFields? fuel depth ((k, v) :: read) (skipBlank rest) := by
  have hkey : string? fuel _ = _ :=
    string?_quote k (0x3A :: 0x20 :: (v.bytes indent ++ rest)) (by omega)
  have hvalue : value? fuel depth (0x20 :: (v.bytes indent ++ rest)) = some (v, rest) := by
    have hlength : 2 * (v.bytes indent).length ≤ fuel := by omega
    apply hr rest hd hlength
    rw [skipBlank_blank rfl, hv.skipBlank_eq]
  have hcolon : skipBlank (0x3A :: 0x20 :: (v.bytes indent ++ rest)) =
      0x3A :: 0x20 :: (v.bytes indent ++ rest) := skipBlank_stop rfl
  rw [encoded_quote, List.cons_append, List.append_assoc, List.singleton_append] at hbs
  simp only [fields?, hbs, hkey, hcolon, hvalue]
  rfl

/-- The fields of an object are read back, up to its closing brace. -/
theorem fields?_write (f : String × Value) (fs : List (String × Value))
    (read : List (String × Value)) (hd : depth + levels ≤ deepest)
    (hv : ∀ g ∈ f :: fs, g.2.Within levels) (hr : ∀ g ∈ f :: fs, Reads levels g.2)
    (hf : 2 * ((encoded (quote f.1)).length + (f.2.bytes indent).length +
      (encoded (Value.writeFields indent fs)).length) < fuel)
    (hbs : skipBlank bs = encoded (quote f.1) ++ 0x3A :: 0x20 :: (f.2.bytes indent ++
      (encoded (Value.writeFields indent fs) ++ (encoded (newline outer) ++ 0x7D :: rest)))) :
    fields? fuel depth bs read = some (.object (read.reverse ++ f :: fs), rest) := by
  induction fs generalizing f fuel bs read with
  | nil =>
    obtain ⟨fuel, rfl⟩ : ∃ m, fuel = m + 1 := ⟨fuel - 1, by omega⟩
    have hclose : skipBlank (encoded (Value.writeFields indent []) ++
        (encoded (newline outer) ++ 0x7D :: rest)) = 0x7D :: rest := by
      rw [Value.writeFields, encoded_nil, List.nil_append, skipBlank_newline]
      exact skipBlank_stop rfl
    rw [fields?_field read hd (hv f List.mem_cons_self) (hr f List.mem_cons_self) (by omega) hbs,
      hclose, afterFields?, List.reverse_cons]
  | cons g gs ih =>
    obtain ⟨fuel, rfl⟩ : ∃ m, fuel = m + 1 := ⟨fuel - 1, by omega⟩
    obtain ⟨hv, hgs⟩ := List.forall_mem_cons.mp hv
    obtain ⟨hrv, hrgs⟩ := List.forall_mem_cons.mp hr
    have hfields : encoded (Value.writeFields indent (g :: gs)) = 0x2C ::
        (encoded (newline indent) ++ (encoded (quote g.1) ++ 0x3A :: 0x20 :: (g.2.bytes indent ++
          encoded (Value.writeFields indent gs)))) := by
      obtain ⟨k, v⟩ := g
      rw [Value.writeFields]
      simp only [encoded_append, List.append_assoc]
      rfl
    have hlength := congrArg List.length hfields
    simp only [List.length_cons, List.length_append] at hlength
    rw [fields?_field read hd hv hrv (by omega) hbs, hfields, List.cons_append, skipBlank_stop rfl,
      afterFields?]
    refine (ih g ((f.1, f.2) :: read) hgs hrgs (by omega) ?_).trans ?_
    · simp only [List.append_assoc, List.cons_append]
      rw [skipBlank_newline, skipBlank_quote]
    · rw [List.reverse_cons, List.append_assoc]
      rfl

theorem Reads.array {items : List Value} (hv : ∀ v ∈ items, v.Within levels)
    (hr : ∀ v ∈ items, Reads levels v) : Reads (levels + 1) (.array items) := by
  intro indent fuel depth bs rest hd hf hbs
  obtain ⟨fuel, rfl⟩ := (Within.array hv).exists_fuel hf
  cases items with
  | nil =>
    rw [value?, hbs]
    refine (if_neg (show ¬ depth ≥ deepest by omega)).trans ?_
    rfl
  | cons v vs =>
    let inner := v.bytes (indent + 1) ++ (encoded (Value.writeItems (indent + 1) vs) ++
      (encoded (newline indent) ++ 0x5D :: rest))
    have hbytes : (Value.array (v :: vs)).bytes indent ++ rest =
        0x5B :: (encoded (newline (indent + 1)) ++ inner) := by
      rw [Value.bytes, Value.write_array]
      simp only [encoded_append, List.append_assoc]
      rfl
    have hlength := congrArg List.length hbytes
    simp only [inner, List.length_cons, List.length_append] at hlength
    have hwithin := hv v List.mem_cons_self
    have hinner : skipBlank inner = inner := hwithin.skipBlank_eq _ _
    have hopen : skipBlank (encoded (newline (indent + 1)) ++ inner) = inner := by
      rw [skipBlank_newline, hinner]
    have hfirst : inner.head? ≠ some 0x5D := by
      obtain ⟨b, cs, hb, hown⟩ := hwithin.starts (indent + 1)
      simp only [inner, hb]
      rintro ⟨⟩
      revert hown
      decide
    rw [value?_array (by omega) (hbs.trans hbytes) hopen hfirst]
    exact items?_write v vs [] (by omega) hv hr (by omega) hinner

theorem Reads.object {fields : List (String × Value)} (hv : ∀ f ∈ fields, f.2.Within levels)
    (hr : ∀ f ∈ fields, Reads levels f.2) : Reads (levels + 1) (.object fields) := by
  intro indent fuel depth bs rest hd hf hbs
  obtain ⟨fuel, rfl⟩ := (Within.object hv).exists_fuel hf
  match fields with
  | [] =>
    rw [value?, hbs]
    refine (if_neg (show ¬ depth ≥ deepest by omega)).trans ?_
    rfl
  | (k, v) :: fs =>
    let inner := encoded (quote k) ++ 0x3A :: 0x20 :: (v.bytes (indent + 1) ++
      (encoded (Value.writeFields (indent + 1) fs) ++ (encoded (newline indent) ++ 0x7D :: rest)))
    have hbytes : (Value.object ((k, v) :: fs)).bytes indent ++ rest =
        0x7B :: (encoded (newline (indent + 1)) ++ inner) := by
      rw [Value.bytes, Value.write_object]
      simp only [encoded_append, List.append_assoc]
      rfl
    have hlength := congrArg List.length hbytes
    simp only [inner, List.length_cons, List.length_append] at hlength
    have hinner : skipBlank inner = inner := skipBlank_quote k _
    have hopen : skipBlank (encoded (newline (indent + 1)) ++ inner) = inner := by
      rw [skipBlank_newline, hinner]
    have hfirst : inner.head? ≠ some 0x7D := by
      simp only [inner, encoded_quote]
      exact nofun
    rw [value?_object (by omega) (hbs.trans hbytes) hopen hfirst]
    have hfuel : 2 * ((encoded (quote k)).length + (v.bytes (indent + 1)).length +
        (encoded (Value.writeFields (indent + 1) fs)).length) < fuel := by omega
    exact fields?_write (k, v) fs [] (by omega) hv hr hfuel hinner

end

/-! ## §4. Whole texts. -/

/-- A value is read back wherever it stands. -/
theorem Value.Within.reads {levels : Nat} {v : Value} (h : v.Within levels) : Reads levels v := by
  induction h with
  | null =>
    intro indent fuel depth bs rest hd hf hbs
    have hnull : Value.null.Within 0 := .null
    obtain ⟨fuel, rfl⟩ := hnull.exists_fuel hf
    rw [value?, hbs]
    rfl
  | bool b =>
    intro indent fuel depth bs rest hd hf hbs
    have hbool : (Value.bool b).Within 0 := .bool b
    obtain ⟨fuel, rfl⟩ := hbool.exists_fuel hf
    rw [value?, hbs]
    cases b <;> rfl
  | string s =>
    intro indent fuel depth bs rest hd hf hbs
    have hlit : (Value.string s).Within 0 := .string s
    obtain ⟨fuel, rfl⟩ := hlit.exists_fuel hf
    have hbytes : (Value.string s).bytes indent = encoded (quote s) := rfl
    have hpos : 0 < (encoded (quote s)).length := by
      rw [encoded_quote]
      exact Nat.succ_pos _
    rw [hbytes] at hf hbs
    have hstring : string? fuel _ = _ := string?_quote s rest (by omega)
    rw [encoded_quote, List.cons_append, List.append_assoc, List.singleton_append] at hbs
    simp only [value?, hbs, hstring, Option.map_some]
  | array h ih => exact Reads.array h ih
  | object h ih => exact Reads.object h ih

/-- Whether a value is read back from its text. -/
def Value.Kept (v : Value) : Prop := parse? (Text.bytesOf v.toText) = some v

/-- A value without numbers is read back from its text if it is not nested too deep. -/
theorem Value.Within.kept {v : Value} (h : v.Within deepest) : v.Kept := by
  have hbytes : Text.bytesOf v.toText = v.bytes 0 ++ [] := by
    rw [List.append_nil]
    exact Text.bytesOf_ofList _
  have hread := h.reads [] (Nat.le_of_eq (Nat.zero_add deepest))
    (show 2 * (v.bytes 0).length ≤ 2 * (Text.bytesOf v.toText).length + 2 by
      rw [hbytes, List.append_nil]
      omega)
    (h.skipBlank_eq 0 [])
  rw [← hbytes] at hread
  rw [Value.Kept, parse?, hread]
  rfl

end Resumable.Json
