/-
  Resumable.Proofs.Json.Strings — a string literal is read back.

  Every character of a string is written as itself, or behind a backslash as one letter or as four
  hexadecimal digits.  The reader takes one character at a time off the bytes of the literal, so
  what holds of each character holds of the string by induction.

  Main results:
    * `unescape?_escape` — a character that is escaped is read back;
    * `string?_quote`    — so is a whole string, up to its closing quote.
-/
import Resumable.Json.Parser
import Resumable.Proofs.Text.Utf8

namespace Resumable

/-! ## §1. Hexadecimal digits. -/

namespace Text

theorem hexDigit_ascii {d : Nat} (h : d < 16) : (hexDigit d).toNat < 0x80 := by
  revert d
  decide

/-- The byte of a digit has the value of the digit. -/
theorem hexValue?_digit {d : Nat} (h : d < 16) :
    hexValue? (Char.ofNat (UInt8.ofNat (hexDigit d).toNat).toNat) = some d := by
  revert d
  decide

end Text

namespace Json

open Text (encoded encoded_cons encoded_append encode_ascii hexDigit hexPadded)

/-- A number of four digits is read back. -/
theorem hex4?_padded {n : Nat} (h : n < 0x10000) (rest : Bytes) :
    hex4? (encoded (hexPadded 4 n) ++ rest) = some (n, rest) := by
  have digit : ∀ d, d < 16 → String.utf8EncodeChar (hexDigit d) =
      [UInt8.ofNat (hexDigit d).toNat] := fun d hd => encode_ascii (Text.hexDigit_ascii hd)
  have small : ∀ m, m % 16 < 16 := fun m => Nat.mod_lt m (by omega)
  have sum : ((16 * (n / 16 / 16 / 16 % 16) + n / 16 / 16 % 16) * 16 + n / 16 % 16) * 16 + n % 16 =
      n := by omega
  simp only [hexPadded, List.nil_append, List.cons_append, encoded_cons, Text.encoded_nil,
    digit _ (small _), hex4?, Option.bind_eq_bind, Text.hexValue?_digit (small _),
    Option.bind_some, sum]
  rfl

/-! ## §2. Escapes. -/

theorem ofNat_eq_of_toNat {c : Char} {n : Nat} (h : c.toNat = n) : c = Char.ofNat n := by
  rw [← h, Char.ofNat_toNat]

/-- The number of a character that is no half of a pair stands for the character. -/
theorem unicode_toNat (c : Char) (rest : Bytes) : unicode c.toNat rest = (c, rest) := by
  have range := Text.toNat_range c
  unfold unicode
  rw [if_neg (by simp; omega), if_neg (by simp; omega), Char.ofNat_toNat]

/-- A character is written behind a backslash and can be read back, or as itself, and then it is
    neither a quote nor a backslash nor a control character. -/
theorem unescape?_escape (c : Char) :
    (∃ e, escape c = '\\' :: e ∧ ∀ rest, unescape? (encoded e ++ rest) = some (c, rest)) ∨
      escape c = [c] ∧ 0x20 ≤ c.toNat ∧ c.toNat ≠ 0x22 ∧ c.toNat ≠ 0x5C := by
  have letter : ∀ {d : Char} {l : List Char}, (∀ rest, unescape? (encoded l ++ rest) =
      some (d, rest)) → c = d → ∃ e, '\\' :: l = '\\' :: e ∧
        ∀ rest, unescape? (encoded e ++ rest) = some (c, rest) := by
    intro d l h hd
    exact ⟨l, rfl, hd ▸ h⟩
  have number : c.toNat < 0x10000 → ∃ e, ['\\', 'u'] ++ hexPadded 4 c.toNat = '\\' :: e ∧
      ∀ rest, unescape? (encoded e ++ rest) = some (c, rest) := by
    intro h
    refine ⟨_, rfl, fun rest => ?_⟩
    show (hex4? (encoded (hexPadded 4 c.toNat) ++ rest)).map _ = _
    rw [hex4?_padded h, Option.map_some]
    exact congrArg some (unicode_toNat c rest)
  unfold escape
  dsimp only
  -- the cases of `escape`, in its order
  by_cases quote : (c == '"') = true
  · rw [if_pos quote]
    exact .inl (letter (fun _ => rfl) (beq_iff_eq.mp quote))
  by_cases backslash : (c == '\\') = true
  · rw [if_neg quote, if_pos backslash]
    exact .inl (letter (fun _ => rfl) (beq_iff_eq.mp backslash))
  rw [if_neg quote, if_neg backslash]
  by_cases h : (c == '\n') = true
  · rw [if_pos h]
    exact .inl (letter (fun _ => rfl) (beq_iff_eq.mp h))
  rw [if_neg h]
  by_cases h : (c == '\r') = true
  · rw [if_pos h]
    exact .inl (letter (fun _ => rfl) (beq_iff_eq.mp h))
  rw [if_neg h]
  by_cases h : (c == '\t') = true
  · rw [if_pos h]
    exact .inl (letter (fun _ => rfl) (beq_iff_eq.mp h))
  rw [if_neg h]
  by_cases h : (c.toNat == 0x08) = true
  · rw [if_pos h]
    exact .inl (letter (fun _ => rfl) (ofNat_eq_of_toNat (beq_iff_eq.mp h)))
  rw [if_neg h]
  by_cases h : (c.toNat == 0x0C) = true
  · rw [if_pos h]
    exact .inl (letter (fun _ => rfl) (ofNat_eq_of_toNat (beq_iff_eq.mp h)))
  rw [if_neg h]
  by_cases control : (decide (c.toNat < 0x20) || c == '<' || c == '>' || c == '&') = true
  · rw [if_pos control]
    refine .inl (number ?_)
    simp only [Bool.or_eq_true, decide_eq_true_eq, beq_iff_eq] at control
    rcases control with ((h | rfl) | rfl) | rfl
    · omega
    all_goals decide
  rw [if_neg control]
  by_cases h : (c.toNat == 0x2028 || c.toNat == 0x2029) = true
  · rw [if_pos h]
    refine .inl (number ?_)
    simp only [Bool.or_eq_true, beq_iff_eq] at h
    omega
  rw [if_neg h]
  refine .inr ⟨rfl, ?_, ?_, ?_⟩
  · simp only [Bool.or_eq_true, decide_eq_true_eq, not_or] at control
    omega
  · intro h
    exact quote (beq_iff_eq.mpr (ofNat_eq_of_toNat h))
  · intro h
    exact backslash (beq_iff_eq.mpr (ofNat_eq_of_toNat h))

/-! ## §3. Strings. -/

/-- A byte of a string that is neither a quote nor a backslash nor a control character starts a
    character. -/
theorem stringFrom?_plain {b : UInt8} {bs rest : Bytes} {c : Char} (fuel : Nat)
    (read : List Char) (hquote : b ≠ 0x22) (hslash : b ≠ 0x5C) (hcontrol : 0x20 ≤ b.toNat)
    (hc : Text.decodeChar? (b :: bs) = some (c, rest)) :
    stringFrom? (fuel + 1) (b :: bs) read = stringFrom? fuel rest (c :: read) := by
  have printable : ¬ b < 0x20 := by
    rw [UInt8.lt_iff_toNat_lt]
    show ¬ b.toNat < 0x20
    omega
  rw [stringFrom?, if_neg (by simpa using hquote), if_neg (by simpa using hslash),
    if_neg printable, hc]

/-- One character of a string is taken off its bytes. -/
theorem stringFrom?_char (fuel : Nat) (c : Char) (rest : Bytes) (read : List Char) :
    stringFrom? (fuel + 1) (encoded (escape c) ++ rest) read =
      stringFrom? fuel rest (c :: read) := by
  rcases unescape?_escape c with ⟨e, he, hread⟩ | ⟨he, hcontrol, hquote, hslash⟩
  · have bytes : encoded ('\\' :: e) ++ rest = 0x5C :: (encoded e ++ rest) := rfl
    rw [he, bytes, stringFrom?, if_neg (by decide), if_pos (by decide), hread]
  · obtain ⟨b, bs, hb, hfirst⟩ := Text.encode_head c
    have bytes : encoded [c] ++ rest = b :: (bs ++ rest) := by
      rw [encoded_cons, hb, Text.encoded_nil, List.append_nil, List.cons_append]
    have hc : Text.decodeChar? (b :: (bs ++ rest)) = some (c, rest) := by
      have := Text.decodeChar?_encode c rest
      rwa [hb, List.cons_append] at this
    rw [he, bytes]
    apply stringFrom?_plain fuel read _ _ _ hc
    · rintro rfl
      rcases hfirst with ⟨h, -⟩ | h
      · exact hquote h.symm
      · exact absurd h (by decide)
    · rintro rfl
      rcases hfirst with ⟨h, -⟩ | h
      · exact hslash h.symm
      · exact absurd h (by decide)
    · omega

/-- The characters of a string are read up to its closing quote. -/
theorem stringFrom?_chars (cs : List Char) {fuel : Nat} (rest : Bytes) (read : List Char)
    (h : cs.length < fuel) :
    stringFrom? fuel (encoded (cs.flatMap escape) ++ 0x22 :: rest) read =
      some (String.ofList (read.reverse ++ cs), rest) := by
  induction cs generalizing fuel read with
  | nil =>
    obtain ⟨fuel, rfl⟩ : ∃ m, fuel = m + 1 := ⟨fuel - 1, by simp at h; omega⟩
    rw [List.flatMap_nil, Text.encoded_nil, List.nil_append, stringFrom?, if_pos (by decide),
      List.append_nil]
  | cons c cs ih =>
    obtain ⟨fuel, rfl⟩ : ∃ m, fuel = m + 1 := ⟨fuel - 1, by simp at h; omega⟩
    rw [List.flatMap_cons, encoded_append, List.append_assoc, stringFrom?_char,
      ih (c :: read) (by simpa using h), List.reverse_cons, List.append_assoc]
    rfl

/-- The bytes of a string literal. -/
theorem encoded_quote (s : String) :
    encoded (quote s) = 0x22 :: (encoded (s.toList.flatMap escape) ++ [0x22]) := by
  unfold quote
  rw [List.cons_append, encoded_cons, encoded_append]
  rfl

theorem length_le_encoded (cs : List Char) : cs.length ≤ (encoded (cs.flatMap escape)).length := by
  induction cs with
  | nil => exact Nat.le_refl 0
  | cons c cs ih =>
    have hpos : 0 < (encoded (escape c)).length := by
      rcases unescape?_escape c with ⟨e, he, -⟩ | ⟨he, -⟩
      · rw [he, encoded_cons]
        exact Nat.succ_pos _
      · obtain ⟨b, bs, hb, -⟩ := Text.encode_head c
        rw [he, encoded_cons, hb]
        exact Nat.succ_pos _
    rw [List.flatMap_cons, encoded_append, List.length_append, List.length_cons]
    omega

/-- A string literal is read back, behind its opening quote. -/
theorem string?_quote (s : String) {fuel : Nat} (rest : Bytes)
    (h : (encoded (quote s)).length ≤ fuel) :
    string? fuel (encoded (s.toList.flatMap escape) ++ 0x22 :: rest) = some (s, rest) := by
  have few := length_le_encoded s.toList
  rw [encoded_quote, List.length_cons, List.length_append] at h
  rw [string?, stringFrom?_chars _ rest [] (by simp at h; omega), List.reverse_nil,
    List.nil_append, String.ofList_toList]

end Json

end Resumable
