/-
  Resumable.Proofs.Text.Utf8 — the bytes of a text, character by character.

  The bytes of a text are those of its characters one after the other, and `decodeChar?` reads a
  character off the front of them whatever follows.

  Main results:
    * `bytesOf_ofList`     — the bytes of a list of characters;
    * `decodeChar?_encode` — a character is read back from its bytes;
    * `textOf?_bytesOf`    — so is a whole text.
-/
import Resumable.Proofs.Cbor.Heads

namespace Resumable.Text

open String (utf8EncodeChar)

/-! ## §1. Bytes of characters. -/

/-- The bytes of characters one after the other. -/
def encoded (cs : List Char) : Bytes := cs.flatMap utf8EncodeChar

@[simp] theorem encoded_nil : encoded [] = [] := rfl

@[simp] theorem encoded_cons (c : Char) (cs : List Char) :
    encoded (c :: cs) = utf8EncodeChar c ++ encoded cs := List.flatMap_cons

@[simp] theorem encoded_append (cs ds : List Char) :
    encoded (cs ++ ds) = encoded cs ++ encoded ds := List.flatMap_append

theorem bytesOf_ofList (cs : List Char) : bytesOf (String.ofList cs) = encoded cs := by
  rw [bytesOf_eq, String.toByteArray_ofList, List.utf8Encode, List.data_toByteArray]
  rfl

/-- A character of one byte. -/
theorem encode_ascii {c : Char} (h : c.toNat < 0x80) :
    utf8EncodeChar c = [UInt8.ofNat c.toNat] := by
  have small : c.val.toNat ≤ 127 := by
    show c.toNat ≤ 127
    omega
  simp only [utf8EncodeChar, if_pos small]
  rfl

/-! ## §2. Reading characters. -/

theorem toNat_range (c : Char) : c.toNat < 0xD800 ∨ 0xDFFF < c.toNat ∧ c.toNat < 0x110000 := c.valid

/-- A character starts with its own byte if it has one only, and with no ASCII byte otherwise. -/
theorem encode_head (c : Char) : ∃ b bs, utf8EncodeChar c = b :: bs ∧
    (b.toNat = c.toNat ∧ c.toNat < 0x80 ∨ 0x80 ≤ b.toNat) := by
  have range := toNat_range c
  have hv : c.val.toNat = c.toNat := rfl
  by_cases h1 : c.toNat < 0x80
  · refine ⟨_, [], encode_ascii h1, .inl ⟨?_, h1⟩⟩
    rw [UInt8.toNat_ofNat']
    omega
  · simp only [utf8EncodeChar, hv, if_neg (show ¬ c.toNat ≤ 127 by omega)]
    split
    · refine ⟨_, _, rfl, .inr ?_⟩
      rw [UInt8.toNat_ofNat']
      omega
    split
    · refine ⟨_, _, rfl, .inr ?_⟩
      rw [UInt8.toNat_ofNat']
      omega
    · refine ⟨_, _, rfl, .inr ?_⟩
      rw [UInt8.toNat_ofNat']
      omega

theorem charOf?_toNat (c : Char) : charOf? c.toNat = some c := by
  have valid : c.toNat.isValidChar := c.valid
  unfold charOf?
  rw [dif_pos valid]
  rfl

theorem tailBits?_ofNat {n : Nat} (h : n < 64) : tailBits? (UInt8.ofNat (n + 128)) = some n := by
  have value : (UInt8.ofNat (n + 128)).toNat = n + 128 := by
    rw [UInt8.toNat_ofNat']
    omega
  unfold tailBits?
  rw [value]
  simp
  omega

/-- The first byte of a character, as a number. -/
theorem lead_toNat {n : Nat} (h : n < 256) : (UInt8.ofNat n).toNat = n := by
  rw [UInt8.toNat_ofNat']
  omega

/-- A character is read back from its bytes, whatever follows them. -/
theorem decodeChar?_encode (c : Char) (rest : Bytes) :
    decodeChar? (utf8EncodeChar c ++ rest) = some (c, rest) := by
  have range := toNat_range c
  have back := charOf?_toNat c
  generalize hn : c.toNat = n at range back
  have hv : c.val.toNat = n := hn
  -- one case for each number of bytes a character can have
  by_cases h1 : n ≤ 127
  · have lead := lead_toNat (n := n) (by omega)
    simp only [utf8EncodeChar, hv, if_pos h1, List.cons_append, List.nil_append, decodeChar?]
    rw [if_pos (by omega), lead, back]
    rfl
  by_cases h2 : n ≤ 2047
  · have lead := lead_toNat (n := n / 64 % 32 + 192) (by omega)
    have tail := tailBits?_ofNat (n := n % 64) (by omega)
    have code : (n / 64 % 32 + 192 - 0xC0) * 64 + n % 64 = n := by omega
    simp only [utf8EncodeChar, hv, if_neg h1, if_pos h2, List.cons_append, List.nil_append,
      decodeChar?, lead, tail, Option.bind_eq_bind, Option.bind_some, code, back]
    rw [if_neg (by omega), if_neg (by omega), if_pos (by omega)]
    rfl
  by_cases h3 : n ≤ 65535
  · have lead := lead_toNat (n := n / 4096 % 16 + 224) (by omega)
    have high := tailBits?_ofNat (n := n / 64 % 64) (by omega)
    have tail := tailBits?_ofNat (n := n % 64) (by omega)
    have code : ((n / 4096 % 16 + 224 - 0xE0) * 64 + n / 64 % 64) * 64 + n % 64 = n := by omega
    simp only [utf8EncodeChar, hv, if_neg h1, if_neg h2, if_pos h3, List.cons_append,
      List.nil_append, decodeChar?, lead, high, tail, Option.bind_eq_bind, Option.bind_some, code,
      back]
    rw [if_neg (by omega), if_neg (by omega), if_neg (by omega), if_pos (by omega),
      if_neg (by omega)]
    rfl
  · have lead := lead_toNat (n := n / 262144 % 8 + 240) (by omega)
    have first := tailBits?_ofNat (n := n / 4096 % 64) (by omega)
    have high := tailBits?_ofNat (n := n / 64 % 64) (by omega)
    have tail := tailBits?_ofNat (n := n % 64) (by omega)
    have code : (((n / 262144 % 8 + 240 - 0xF0) * 64 + n / 4096 % 64) * 64 + n / 64 % 64) * 64 +
        n % 64 = n := by omega
    simp only [utf8EncodeChar, hv, if_neg h1, if_neg h2, if_neg h3, List.cons_append,
      List.nil_append, decodeChar?, lead, first, high, tail, Option.bind_eq_bind,
      Option.bind_some, code, back]
    rw [if_neg (by omega), if_neg (by omega), if_neg (by omega), if_neg (by omega),
      if_pos (by omega), if_neg (by omega)]
    rfl

/-- A text is read back from its bytes. -/
theorem textOf?_bytesOf (s : String) : textOf? (bytesOf s) = some s := by
  have same : (⟨(bytesOf s).toArray⟩ : ByteArray) = s.toByteArray := by
    rw [bytesOf_eq]
  unfold textOf?
  rw [same, String.fromUTF8?, dif_pos s.isValidUTF8]
  rfl

end Resumable.Text
