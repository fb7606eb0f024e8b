/-
  Resumable.Proofs.Cache.Separation — keys tell documents and settings apart.

  A key is the digest of a fingerprint, a zero byte and a document, and a fingerprint is the digest
  of the settings that influence what is compiled.  Every digest has the same length, so the two
  parts of what a key stands for can be told apart; and the settings can be read off their bytes.
  As long as no two of the messages at hand have the same digest, a key therefore stands for one
  document compiled in one way.

  Main results:
    * `keyed_inj`     — a fingerprint and a document are determined by what a key is the digest of;
    * `essence_inj`   — settings are determined by their bytes, up to what compiling ignores;
    * `key_separates` — so they are by a key, as far as digests do not collide;
    * `fingerprint_separates` — keys and fingerprints stand for all that compiling depends on, and
      for nothing else.
-/
import Resumable.Compiler
import Resumable.Proofs.Cbor.Heads

namespace Resumable

/-! ## §1. Digests. -/

namespace Text

theorem utf8Size_hexDigit {n : Nat} (h : n < 16) : (hexDigit n).utf8Size = 1 := by
  revert n
  decide

theorem size_hexOfBytes (bs : Bytes) : (hexOfBytes bs).utf8ByteSize = 2 * bs.length := by
  induction bs with
  | nil => rfl
  | cons b bs ih =>
    have high : b.toNat / 16 % 16 < 16 := Nat.mod_lt _ (by omega)
    have low : b.toNat % 16 < 16 := Nat.mod_lt _ (by omega)
    have pair : (String.ofList (hexPadded 2 b.toNat)).utf8ByteSize = 2 := by
      have two : String.ofList (hexPadded 2 b.toNat) =
          String.singleton (hexDigit (b.toNat / 16 % 16)) ++
            String.singleton (hexDigit (b.toNat % 16)) := by
        simp only [hexPadded, List.nil_append, String.ofList_append, String.singleton_eq_ofList]
      rw [two, String.utf8ByteSize_append, String.utf8ByteSize_singleton,
        String.utf8ByteSize_singleton, utf8Size_hexDigit high, utf8Size_hexDigit low]
    simp only [hexOfBytes, List.flatMap_cons, String.ofList_append, String.utf8ByteSize_append,
      List.length_cons] at ih ⊢
    omega

end Text

namespace Digest

theorem length_sha256 (message : Bytes) : (sha256 message).length = 32 := by
  simp [sha256, Words.toList]

/-- Every digest has the same length. -/
theorem size_sha256Hex (message : Bytes) : (sha256Hex message).utf8ByteSize = 64 := by
  rw [sha256Hex, Text.size_hexOfBytes, length_sha256]

/-- No two of some messages have the same digest. -/
def NoCollision (messages : List Bytes) : Prop :=
  ∀ m ∈ messages, ∀ m' ∈ messages, sha256Hex m = sha256Hex m' → m = m'

instance (messages : List Bytes) : Decidable (NoCollision messages) :=
  inferInstanceAs (Decidable (∀ m ∈ messages, ∀ m' ∈ messages, sha256Hex m = sha256Hex m' → m = m'))

end Digest

/-- Fingerprints of the same length, and documents, are determined by what a key is the digest
    of. -/
theorem Cache.keyed_inj {fp fp' : String} {d d' : Bytes} (size : fp.utf8ByteSize = fp'.utf8ByteSize)
    (h : keyed fp d = keyed fp' d') : fp = fp' ∧ d = d' := by
  rw [← Text.length_bytesOf, ← Text.length_bytesOf] at size
  obtain ⟨front, back⟩ := List.append_inj h size
  exact ⟨Text.bytesOf_injective front, (List.cons.inj back).2⟩

/-! ## §2. Settings. -/

namespace Settings

open Cbor (head Item)

/-- Settings without what compiling ignores. -/
def core (s : Settings) : Settings :=
  { starts := s.starts, markers := s.markers, pattern := s.pattern
    container := s.container, stem := s.stem, returnValue := s.returnValue }

/-- Compilers come down to the core of their settings. -/
theorem ofSettings_core (s : Settings) : Compiler.ofSettings s.core = Compiler.ofSettings s := rfl

/-- The bytes of settings: six fields in the order of their keys, which is the one they are
    given in. -/
theorem essence_eq (s : Settings) :
    s.essence = 0xA6 ::
      ((0x01 :: (listItem s.starts).encode) ++ (0x02 :: (listItem s.markers).encode) ++
       (0x03 :: (Item.ofText s.pattern).encode) ++ (0x04 :: (Item.ofText s.container).encode) ++
       (0x05 :: (Item.ofText s.stem).encode) ++ (0x06 :: (Item.ofText s.returnValue).encode)) := by
  have ordered : (Item.encodeEntries [
      (.unsigned 1, listItem s.starts), (.unsigned 2, listItem s.markers),
      (.unsigned 3, .ofText s.pattern), (.unsigned 4, .ofText s.container),
      (.unsigned 5, .ofText s.stem), (.unsigned 6, .ofText s.returnValue)]).Pairwise
        (fun a b => Cbor.keyBefore a.1 b.1) := by
    simp [Item.encodeEntries, Item.encode, head, Cbor.keyBefore, Cbor.bytesBefore]
  rw [essence, Item.encode, List.mergeSort_of_pairwise ordered]
  simp [Item.encodeEntries, Item.encode, head]

/-- Settings that name nothing but a container. -/
theorem essence_container (container : String) :
    ({ container } : Settings).essence =
      [0xA6, 1, 0xF6, 2, 0xF6, 3, 0x60, 4] ++ (Item.ofText container).encode ++
        [5, 0x60, 6, 0x60] := by
  have hnone : (listItem none).encode = [0xF6] := by decide +kernel
  have hempty : (Item.ofText "").encode = [0x60] := by decide +kernel
  rw [essence_eq, hnone, hempty]
  simp

/-- Null is no list: their heads have different major types. -/
theorem null_ne_list {texts : List String} {rest rest' : Bytes}
    (short : (listItem (some texts)).encode.length < 2 ^ 64) :
    (listItem none).encode ++ rest ≠ (listItem (some texts)).encode ++ rest' := by
  intro h
  simp only [listItem, Item.encode, List.length_append, List.length_map,
    List.append_assoc] at short h
  have few := Item.length_le_encodeAll texts
  obtain ⟨low, -, read⟩ := Cbor.Head.parse?_head (Item.encodeAll (texts.map .ofText) ++ rest')
    (show 4 < 7 by omega) (show texts.length < 2 ^ 64 by omega)
  -- the first byte of null is read as a head of major type 7
  rw [← h] at read
  simp [Cbor.Head.parse?] at read

/-- Two lists at the front of the same bytes are the same, and one that was not given is apart
    from all others. -/
theorem listItem_inj {l l' : Option (List String)} {rest rest' : Bytes}
    (hl : (listItem l).encode.length < 2 ^ 64) (hl' : (listItem l').encode.length < 2 ^ 64)
    (h : (listItem l).encode ++ rest = (listItem l').encode ++ rest') : l = l' ∧ rest = rest' := by
  cases l with
  | none =>
    cases l' with
    | none => exact ⟨rfl, by simpa [listItem, Item.encode] using h⟩
    | some texts' => exact absurd h (null_ne_list hl')
  | some texts =>
    cases l' with
    | none => exact absurd h.symm (null_ne_list hl)
    | some texts' =>
      simp only [listItem, Item.encode, List.length_append, List.length_map,
        List.append_assoc] at hl hl' h
      have few := Item.length_le_encodeAll texts
      have few' := Item.length_le_encodeAll texts'
      obtain ⟨-, same, behind⟩ :=
        Cbor.head_append_inj (by omega) (by omega) (by omega) (by omega) h
      obtain ⟨texts_eq, back⟩ := Item.encodeAll_texts_inj (by omega) (by omega) same behind
      exact ⟨congrArg some texts_eq, back⟩

/-- Settings with the same bytes have the same core. -/
theorem essence_inj {s s' : Settings} (hs : s.essence.length < 2 ^ 64)
    (hs' : s'.essence.length < 2 ^ 64) (h : s.essence = s'.essence) : s.core = s'.core := by
  rw [essence_eq] at hs hs' h
  rw [essence_eq] at h
  simp only [List.length_cons, List.length_append] at hs hs'
  simp only [List.cons_append, List.append_assoc, List.cons.injEq, true_and] at h
  -- field by field from the front; the byte between two fields is the key of the next one
  obtain ⟨starts, h⟩ := listItem_inj (by omega) (by omega) h
  obtain ⟨markers, h⟩ := listItem_inj (by omega) (by omega) (List.cons.inj h).2
  obtain ⟨pattern, h⟩ := Item.encode_text_inj (by omega) (by omega) (List.cons.inj h).2
  obtain ⟨container, h⟩ := Item.encode_text_inj (by omega) (by omega) (List.cons.inj h).2
  obtain ⟨stem, h⟩ := Item.encode_text_inj (by omega) (by omega) (List.cons.inj h).2
  -- nothing follows the last text
  have last : (Item.ofText s.returnValue).encode ++ [] =
      (Item.ofText s'.returnValue).encode ++ [] := congrArg (· ++ []) (List.cons.inj h).2
  obtain ⟨returnValue, -⟩ := Item.encode_text_inj (by omega) (by omega) last
  rw [core, core, starts, markers, pattern, container, stem, returnValue]

/-! ## §3. Keys. -/

/-- A key stands for one document and one core of settings, as far as no two of the messages
    behind two keys have the same digest. -/
theorem key_separates {messages : List Bytes} (apart : Digest.NoCollision messages)
    {s s' : Settings} {d d' : Bytes}
    (hs : s.essence.length < 2 ^ 64) (hs' : s'.essence.length < 2 ^ 64)
    (essence : s.essence ∈ messages) (essence' : s'.essence ∈ messages)
    (keyed : Cache.keyed s.fingerprint d ∈ messages)
    (keyed' : Cache.keyed s'.fingerprint d' ∈ messages)
    (h : Cache.key s.fingerprint d = Cache.key s'.fingerprint d') : s.core = s'.core ∧ d = d' := by
  have size : s.fingerprint.utf8ByteSize = s'.fingerprint.utf8ByteSize := by
    unfold fingerprint fingerprintBy
    rw [Digest.size_sha256Hex, Digest.size_sha256Hex]
  have message : Cache.keyed s.fingerprint d = Cache.keyed s'.fingerprint d' :=
    apart _ keyed _ keyed' h
  obtain ⟨fingerprints, documents⟩ := Cache.keyed_inj size message
  have essences : s.essence = s'.essence := apart _ essence _ essence' fingerprints
  exact ⟨essence_inj hs hs' essences, documents⟩

/-! ## §4. Fingerprints. -/

/-- Settings with the same fingerprint have the same core, as far as their bytes do not collide. -/
theorem core_of_fingerprint_eq {s s' : Settings}
    (hs : s.essence.length < 2 ^ 64) (hs' : s'.essence.length < 2 ^ 64)
    (apart : Digest.NoCollision [s.essence, s'.essence])
    (h : s.fingerprint = s'.fingerprint) : s.core = s'.core := by
  have essences : s.essence = s'.essence := apart _ (by simp) _ (by simp) h
  exact essence_inj hs hs' essences

/-- Settings with the same core come to the same compiler. -/
theorem ofSettings_congr {s s' : Settings} (h : s.core = s'.core) :
    Compiler.ofSettings s = Compiler.ofSettings s' := by
  rw [← ofSettings_core s, h, ofSettings_core s']

/-- A key stands for one document and for everything that was chosen about names; a fingerprint
    stands for all that a compiler takes from settings, whatever cache it has; and neither the form
    of output nor the log nor the cache enters it.  Digests are taken not to collide on the messages
    at hand, and settings are as a machine can hold them: no length in their bytes needs more than
    eight. -/
theorem fingerprint_separates {s s' : Settings}
    (hs : s.essence.length < 2 ^ 64) (hs' : s'.essence.length < 2 ^ 64) :
    (∀ d d' : Bytes,
      Digest.NoCollision [s.essence, s'.essence,
        Cache.keyed s.fingerprint d, Cache.keyed s'.fingerprint d'] →
      Cache.key s.fingerprint d = Cache.key s'.fingerprint d' →
      d = d' ∧ s.starts = s'.starts ∧ s.markers = s'.markers ∧ s.pattern = s'.pattern ∧
        s.container = s'.container ∧ s.stem = s'.stem ∧ s.returnValue = s'.returnValue) ∧
    (Digest.NoCollision [s.essence, s'.essence] → s.fingerprint = s'.fingerprint →
      ∀ {σ : Type} (cache : Option (Cache.Access σ)) (cancelled : Bool) (document : Bytes)
        (state : σ),
        (Compiler.ofSettings s).map (·.compile cache cancelled document state) =
          (Compiler.ofSettings s').map (·.compile cache cancelled document state)) ∧
    (∀ (format level : String) (development : Bool) (cachePath : String),
      ({ s with format, level, development, cachePath } : Settings).fingerprint =
        s.fingerprint) := by
  refine ⟨?_, ?_, ?_⟩
  · intro d d' apart h
    obtain ⟨core, document⟩ := key_separates apart hs hs' (by simp) (by simp) (by simp) (by simp) h
    simp only [Settings.core, Settings.mk.injEq] at core
    obtain ⟨starts, markers, pattern, container, stem, returnValue, -⟩ := core
    exact ⟨document, starts, markers, pattern, container, stem, returnValue⟩
  · intro apart h σ cache cancelled document state
    rw [ofSettings_congr (core_of_fingerprint_eq hs hs' apart h)]
  · intro format level development cachePath
    -- what the digest is taken of has no part of the four
    rfl

/-- Settings in a container of their own against the usual ones: their keys are apart.  Settings
    that only show their output in another form are compiled alike. -/
theorem fingerprint_separates_of_container :
    let s : Settings := { container := "$vars" }
    let s' : Settings := {}
    let shown : Settings := { s with format := "yaml", level := "debug" }
    let d := Text.bytesOf "[toplevel, []]"
    Digest.NoCollision [s.essence, s'.essence,
      Cache.keyed s.fingerprint d, Cache.keyed s'.fingerprint d] ∧
    Cache.key s.fingerprint d ≠ Cache.key s'.fingerprint d ∧
    shown.fingerprint = s.fingerprint ∧
    (Compiler.ofSettings shown).map (·.compile (some Cache.Store.access) false d {}) =
      (Compiler.ofSettings s).map (·.compile (some Cache.Store.access) false d {}) := by
  intro s s' shown d
  have bytes : s.essence = _ := essence_container "$vars"
  have bytes' : s'.essence = _ := essence_container ""
  have same : shown.essence = s.essence := rfl
  have short : s.essence.length < 2 ^ 64 := by
    rw [bytes]
    decide +kernel
  have short' : s'.essence.length < 2 ^ 64 := by
    rw [bytes']
    decide +kernel
  have apart : Digest.NoCollision [s.essence, s'.essence,
      Cache.keyed s.fingerprint d, Cache.keyed s'.fingerprint d] := by
    simp only [fingerprint, fingerprintBy, bytes, bytes']
    decide +kernel
  obtain ⟨keys, -, shows⟩ := fingerprint_separates short short'
  obtain ⟨-, compiles, -⟩ := fingerprint_separates (s := shown) (same ▸ short) short
  refine ⟨apart, ?_, shows "yaml" "debug" false "", ?_⟩
  · intro h
    obtain ⟨-, -, -, -, container, -⟩ := keys d d apart h
    exact absurd container (by decide)
  · exact compiles (by simp [Digest.NoCollision, same]) (shows "yaml" "debug" false "") _ _ _ _

end Settings

end Resumable
