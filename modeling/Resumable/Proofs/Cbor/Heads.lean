/-
  Resumable.Proofs.Cbor.Heads — what is written can be read off its bytes.

  A head names the major type and the number of an item, and reading it back gives both and the
  bytes behind it, as long as the number fits in eight bytes.  A text is a head and as many bytes
  as it says, so a text, and then a list of texts, can be told from whatever follows it.

  Main results:
    * `Head.parse?_head`    — reading a head back;
    * `head_append_inj`     — two heads with the same bytes are the same head;
    * `encode_text_inj`     — two texts written at the front of the same bytes are the same text;
    * `encodeAll_texts_inj` — so are two lists of as many texts.
-/
import Resumable.Cbor.Parser
import Mathlib.Algebra.Group.Nat.Defs

namespace Resumable

/-! ## §1. The bytes of a text. -/

namespace Text

/-- What a reader of an array has collected: the bytes read so far, then those from `i` on. -/
theorem collected (array : ByteArray) (i : Nat) (read : List UInt8) :
    ByteArray.toList.loop array i read = read.reverse ++ array.data.toList.drop i := by
  have size : array.data.toList.length = array.size := rfl
  fun_induction ByteArray.toList.loop array i read with
  | case1 i read within ih =>
    have here : array.data.toList.drop i = array.get! i :: array.data.toList.drop (i + 1) := by
      rw [List.drop_eq_getElem_cons (size ▸ within)]
      simp [ByteArray.get!, getElem!_pos array.data i within]
    rw [ih, here, List.reverse_cons, List.append_assoc, List.singleton_append]
  | case2 i read past => rw [List.drop_eq_nil_of_le (by omega), List.append_nil]

/-- The bytes of a text are those its array holds. -/
theorem bytesOf_eq (s : String) : bytesOf s = s.toByteArray.data.toList := by
  unfold bytesOf ByteArray.toList
  rw [collected]
  rfl

/-- Texts with the same bytes are the same. -/
theorem bytesOf_injective {s t : String} (h : bytesOf s = bytesOf t) : s = t := by
  rw [bytesOf_eq, bytesOf_eq] at h
  apply String.toByteArray_inj.1
  apply ByteArray.ext
  exact Array.toList_inj.1 h

theorem length_bytesOf (s : String) : (bytesOf s).length = s.utf8ByteSize := by
  rw [bytesOf_eq]
  rfl

end Text

namespace Cbor

/-! ## §2. Numbers. -/

@[simp] theorem length_bigEndian (w n : Nat) : (bigEndian w n).length = w := by
  induction w generalizing n with
  | zero => rfl
  | succ w ih => simp [bigEndian, ih]

theorem ofBigEndian_append (bs : Bytes) (b : UInt8) :
    ofBigEndian (bs ++ [b]) = 256 * ofBigEndian bs + b.toNat := by
  simp [ofBigEndian]

/-- A number that fits is read back. -/
theorem ofBigEndian_bigEndian {w n : Nat} (h : n < 256 ^ w) :
    ofBigEndian (bigEndian w n) = n := by
  induction w generalizing n with
  | zero =>
    have : n = 0 := by simpa using h
    simp [bigEndian, ofBigEndian, this]
  | succ w ih =>
    have high : n / 256 < 256 ^ w := by
      rw [Nat.pow_succ] at h
      omega
    have low : (UInt8.ofNat (n % 256)).toNat = n % 256 := by
      rw [UInt8.toNat_ofNat']
      omega
    rw [bigEndian, ofBigEndian_append, ih high, low]
    omega

theorem takeBytes?_append {n : Nat} {bs : Bytes} (rest : Bytes) (h : bs.length = n) :
    takeBytes? n (bs ++ rest) = some (bs, rest) := by
  subst h
  simp [takeBytes?]

/-! ## §3. Heads. -/

theorem length_head_pos (major n : Nat) : 0 < (head major n).length := by
  unfold head
  repeat' split
  all_goals simp

/-- The first byte of a head, taken apart. -/
theorem first_byte {major : Nat} (low : Nat) (hm : major < 7) (hl : low < 32) :
    (UInt8.ofNat (32 * major + low)).toNat / 32 = major ∧
      (UInt8.ofNat (32 * major + low)).toNat % 32 = low := by
  rw [UInt8.toNat_ofNat']
  omega

/-- A number in a form of its own after the first byte is read back. -/
theorem Head.parse?_wide {major low width n : Nat} (rest : Bytes) (hm : major < 7)
    (form : (low = 24 ∧ width = 1) ∨ (low = 25 ∧ width = 2) ∨ (low = 26 ∧ width = 4) ∨
      (low = 27 ∧ width = 8)) (hn : n < 256 ^ width) :
    Head.parse? (UInt8.ofNat (32 * major + low) :: bigEndian width n ++ rest) =
      some ({ major, low, value := n }, rest) := by
  obtain ⟨hmajor, hlow⟩ := first_byte low hm (by omega)
  have taken := takeBytes?_append rest (length_bigEndian width n)
  have seven : (major == 7) = false := by simp; omega
  rw [List.cons_append, Head.parse?]
  simp only [hmajor, hlow]
  rcases form with ⟨rfl, rfl⟩ | ⟨rfl, rfl⟩ | ⟨rfl, rfl⟩ | ⟨rfl, rfl⟩ <;>
    simp [taken, seven, ofBigEndian_bigEndian hn]

/-- Reading a head back gives its major type, its number and the bytes behind it. -/
theorem Head.parse?_head {major n : Nat} (rest : Bytes) (hm : major < 7) (hn : n < 2 ^ 64) :
    ∃ low < 28, Head.parse? (head major n ++ rest) = some ({ major, low, value := n }, rest) := by
  -- one case for each width a number can be written in
  by_cases h1 : n < 24
  · obtain ⟨hmajor, hlow⟩ := first_byte n hm (by omega)
    refine ⟨n, by omega, ?_⟩
    rw [head, if_pos h1, List.singleton_append, Head.parse?]
    simp only [hmajor, hlow, if_pos h1]
  by_cases h2 : n < 0x100
  · refine ⟨24, by omega, ?_⟩
    rw [head, if_neg h1, if_pos h2]
    exact parse?_wide rest hm (.inl ⟨rfl, rfl⟩) (by omega)
  by_cases h3 : n < 0x10000
  · refine ⟨25, by omega, ?_⟩
    rw [head, if_neg h1, if_neg h2, if_pos h3]
    exact parse?_wide rest hm (.inr (.inl ⟨rfl, rfl⟩)) (by omega)
  by_cases h4 : n < 0x100000000
  · refine ⟨26, by omega, ?_⟩
    rw [head, if_neg h1, if_neg h2, if_neg h3, if_pos h4]
    exact parse?_wide rest hm (.inr (.inr (.inl ⟨rfl, rfl⟩))) (by omega)
  · refine ⟨27, by omega, ?_⟩
    rw [head, if_neg h1, if_neg h2, if_neg h3, if_neg h4]
    exact parse?_wide rest hm (.inr (.inr (.inr ⟨rfl, rfl⟩))) (by omega)

/-- Two heads at the front of the same bytes are the same head, with the same bytes behind. -/
theorem head_append_inj {major major' n n' : Nat} {rest rest' : Bytes}
    (hm : major < 7) (hm' : major' < 7) (hn : n < 2 ^ 64) (hn' : n' < 2 ^ 64)
    (h : head major n ++ rest = head major' n' ++ rest') :
    major = major' ∧ n = n' ∧ rest = rest' := by
  obtain ⟨low, _, read⟩ := Head.parse?_head rest hm hn
  obtain ⟨low', _, read'⟩ := Head.parse?_head rest' hm' hn'
  rw [h, read'] at read
  simp only [Option.some.injEq, Prod.mk.injEq, Head.mk.injEq] at read
  exact ⟨read.1.1.symm, read.1.2.2.symm, read.2.symm⟩

/-! ## §4. Texts. -/

namespace Item

theorem encode_ofText (s : String) :
    (ofText s).encode = head 3 (Text.bytesOf s).length ++ Text.bytesOf s := by
  simp [ofText, encode]

theorem length_text_pos (s : String) : 0 < (ofText s).encode.length := by
  rw [encode_ofText, List.length_append]
  have := length_head_pos 3 (Text.bytesOf s).length
  omega

/-- Two texts at the front of the same bytes are the same text, with the same bytes behind. -/
theorem encode_text_inj {s s' : String} {rest rest' : Bytes}
    (hs : (ofText s).encode.length < 2 ^ 64) (hs' : (ofText s').encode.length < 2 ^ 64)
    (h : (ofText s).encode ++ rest = (ofText s').encode ++ rest') : s = s' ∧ rest = rest' := by
  rw [encode_ofText, List.length_append] at hs hs'
  rw [encode_ofText, encode_ofText, List.append_assoc, List.append_assoc] at h
  obtain ⟨-, same, behind⟩ := head_append_inj (by omega) (by omega) (by omega) (by omega) h
  obtain ⟨front, back⟩ := List.append_inj behind same
  exact ⟨Text.bytesOf_injective front, back⟩

/-- No text is written without a byte. -/
theorem length_le_encodeAll (texts : List String) :
    texts.length ≤ (encodeAll (texts.map ofText)).length := by
  induction texts with
  | nil => exact Nat.le_refl 0
  | cons t texts ih =>
    have := length_text_pos t
    simp only [List.map_cons, encodeAll, List.length_append, List.length_cons]
    omega

/-- Two lists of as many texts at the front of the same bytes are the same list. -/
theorem encodeAll_texts_inj {texts texts' : List String} {rest rest' : Bytes}
    (ht : (encodeAll (texts.map ofText)).length < 2 ^ 64)
    (ht' : (encodeAll (texts'.map ofText)).length < 2 ^ 64)
    (length : texts.length = texts'.length)
    (h : encodeAll (texts.map ofText) ++ rest = encodeAll (texts'.map ofText) ++ rest') :
    texts = texts' ∧ rest = rest' := by
  induction texts generalizing texts' with
  | nil =>
    have none : texts' = [] := List.length_eq_zero_iff.1 length.symm
    subst none
    exact ⟨rfl, by simpa [encodeAll] using h⟩
  | cons t texts ih =>
    cases texts' with
    | nil => cases length
    | cons t' texts' =>
      simp only [List.map_cons, encodeAll, List.length_append, List.append_assoc] at ht ht' h
      obtain ⟨same, behind⟩ := encode_text_inj (by omega) (by omega) h
      obtain ⟨others, back⟩ := ih (by omega) (by omega) (by simpa using length) behind
      exact ⟨by rw [same, others], back⟩

end Item

end Cbor

end Resumable
