/-
  Resumable.Proofs.Source.Literals — the value of a string literal.

  A string of the language is a row of 16-bit units, so an escape may stand for half of a pair, and
  a character outside of the first plane has two units.  `literal?` reads a literal like that, and
  wherever the scanner takes a string off a text, the value is the units of that string
  (`literalBody_of_stringBody`).  Units determine a text, so a literal determines what was quoted.

  Behind an object key there is a colon.  It ends a bare key, and what ends a quoted key is its
  quote, so the text determines the key and what follows (`key_append_inj`).

  Main statement: `quote_reads_back`.
-/
import Mathlib.Algebra.Group.Nat.Defs
import Resumable.Proofs.Source.Tokens

namespace Resumable.Reading

/-! ## §1. Units. -/

/-- The 16-bit units of a character: one, or a pair of surrogates. -/
def unitsOf (c : Char) : List UInt16 :=
  if c.toNat < 0x10000 then [UInt16.ofNat c.toNat]
  else [UInt16.ofNat (0xD800 + (c.toNat - 0x10000) / 0x400),
    UInt16.ofNat (0xDC00 + (c.toNat - 0x10000) % 0x400)]

/-- The 16-bit units of a text. -/
def units (s : String) : List UInt16 := s.toList.flatMap unitsOf

theorem eq_of_ofNat_eq {m n : Nat} (hm : m < 0x10000) (hn : n < 0x10000)
    (h : UInt16.ofNat m = UInt16.ofNat n) : m = n := by
  have hvalue := congrArg UInt16.toNat h
  rw [UInt16.toNat_ofNat', UInt16.toNat_ofNat'] at hvalue
  omega

/-- Units start with one character only. -/
theorem unitsOf_append_inj {c d : Char} {us vs : List UInt16}
    (h : unitsOf c ++ us = unitsOf d ++ vs) : c = d ∧ us = vs := by
  have rangeC : c.toNat < 0xD800 ∨ 0xDFFF < c.toNat ∧ c.toNat < 0x110000 := c.valid
  have rangeD : d.toNat < 0xD800 ∨ 0xDFFF < d.toNat ∧ d.toNat < 0x110000 := d.valid
  unfold unitsOf at h
  split at h
  · split at h
    · obtain ⟨hfirst, hrest⟩ := List.cons.inj h
      exact ⟨Char.toNat_inj.mp (eq_of_ofNat_eq (by omega) (by omega) hfirst), hrest⟩
    · -- no character has the number of a surrogate
      have := eq_of_ofNat_eq (by omega) (by omega) (List.cons.inj h).1
      omega
  · split at h
    · have := eq_of_ofNat_eq (by omega) (by omega) (List.cons.inj h).1
      omega
    · obtain ⟨hfirst, hothers⟩ := List.cons.inj h
      obtain ⟨hsecond, hrest⟩ := List.cons.inj hothers
      have hhigh := eq_of_ofNat_eq (by omega) (by omega) hfirst
      have hlow := eq_of_ofNat_eq (by omega) (by omega) hsecond
      exact ⟨Char.toNat_inj.mp (by omega), hrest⟩

theorem flatMap_unitsOf_injective : Function.Injective (List.flatMap unitsOf) := by
  have hsome (c : Char) (cs : List Char) : (c :: cs).flatMap unitsOf ≠ [] := by
    rw [List.flatMap_cons]
    unfold unitsOf
    split <;> simp
  intro cs
  induction cs with
  | nil =>
    intro ds h
    cases ds with
    | nil => rfl
    | cons d ds => exact absurd h.symm (hsome d ds)
  | cons c cs ih =>
    intro ds h
    cases ds with
    | nil => exact absurd h (hsome c cs)
    | cons d ds =>
      rw [List.flatMap_cons, List.flatMap_cons] at h
      obtain ⟨rfl, hrest⟩ := unitsOf_append_inj h
      rw [ih hrest]

/-- Different texts have different units. -/
theorem units_injective : Function.Injective units := by
  intro s t h
  exact String.toList_inj.mp (flatMap_unitsOf_injective h)

/-! ## §2. Literals. -/

/-- The unit with a number in hexadecimal digits. -/
def hexUnit? (digits : List Char) : Option (List UInt16) := do
  let values ← digits.mapM Text.hexValue?
  return [UInt16.ofNat (values.foldl (fun n d => 16 * n + d) 0)]

/-- Some units in front of the rest of a string. -/
def putUnits (us : Option (List UInt16)) (r : Option (List UInt16 × List Char)) :
    Option (List UInt16 × List Char) := do
  let us ← us
  let (vs, rest) ← r
  return (us ++ vs, rest)

/-- The units of a string up to its closing double quote, and what follows the quote. -/
def literalBody : List Char → Option (List UInt16 × List Char)
  | [] => none
  | '\\' :: 'u' :: x :: y :: z :: w :: rest => putUnits (hexUnit? [x, y, z, w]) (literalBody rest)
  | '\\' :: 'x' :: x :: y :: rest => putUnits (hexUnit? [x, y]) (literalBody rest)
  | '\\' :: '\r' :: '\n' :: rest => literalBody rest
  | '\\' :: e :: rest =>
    if isNewline e then literalBody rest
    else putUnits ((escaped? e rest).map unitsOf) (literalBody rest)
  | c :: rest =>
    if c == '"' then some ([], rest)
    else if isNewline c then none
    else putUnits (some (unitsOf c)) (literalBody rest)

/-- The value of the string literal in double quotes that a text starts with, and what follows. -/
def literal? : List Char → Option (List UInt16 × List Char)
  | '"' :: cs => literalBody cs
  | _ => none

theorem hexValue?_lt {c : Char} {d : Nat} (h : Text.hexValue? c = some d) : d < 16 := by
  have upper {lo hi : Char} (hc : (decide (lo ≤ c) && decide (c ≤ hi)) = true) :
      c.toNat ≤ hi.toNat :=
    UInt32.le_iff_toNat_le.mp (of_decide_eq_true (Bool.and_eq_true_iff.mp hc).2)
  unfold Text.hexValue? at h
  split at h
  · next hc =>
    have : c.toNat ≤ 0x39 := upper hc
    cases h
    omega
  split at h
  · next hc =>
    have : c.toNat ≤ 0x66 := upper hc
    cases h
    omega
  split at h
  · next hc =>
    have : c.toNat ≤ 0x46 := upper hc
    cases h
    omega
  · cases h

/-- Digits stand for a number that has no more places than there are digits. -/
theorem hexNumber_lt {digits : List Char} {values : List Nat}
    (h : digits.mapM Text.hexValue? = some values) (n : Nat) :
    values.foldl (fun n d => 16 * n + d) n < (n + 1) * 16 ^ digits.length := by
  induction digits generalizing values n with
  | nil =>
    cases h
    show n < (n + 1) * 16 ^ 0
    omega
  | cons c digits ih =>
    rw [List.mapM_cons] at h
    obtain ⟨d, hd, h⟩ := Option.bind_eq_some_iff.mp h
    obtain ⟨others, hothers, h⟩ := Option.bind_eq_some_iff.mp h
    cases h
    have hdigit := hexValue?_lt hd
    calc List.foldl (fun n d => 16 * n + d) (16 * n + d) others
        < (16 * n + d + 1) * 16 ^ digits.length := ih hothers _
      _ ≤ ((n + 1) * 16) * 16 ^ digits.length := Nat.mul_le_mul_right _ (by omega)
      _ = (n + 1) * 16 ^ (digits.length + 1) := by rw [Nat.pow_succ', Nat.mul_assoc]

/-- Where digits stand for a character, they stand for its only unit. -/
theorem hexUnit?_of_unit? {digits : List Char} {c : Char} (hfew : digits.length ≤ 4)
    (h : unit? digits = some c) : hexUnit? digits = some (unitsOf c) := by
  obtain ⟨values, hvalues, h⟩ := Option.bind_eq_some_iff.mp h
  have hnumber := hexNumber_lt hvalues 0
  have hplaces : 16 ^ digits.length ≤ 16 ^ 4 := Nat.pow_le_pow_right (by decide) hfew
  rw [hexUnit?, hvalues]
  dsimp only at h
  show some [UInt16.ofNat (values.foldl (fun n d => 16 * n + d) 0)] = _
  generalize values.foldl (fun n d => 16 * n + d) 0 = n at h hnumber
  split at h
  · cases h
  · next hsurrogate =>
    cases h
    simp only [Bool.and_eq_true, decide_eq_true_eq, not_and, Nat.not_lt] at hsurrogate
    have hvalid : n.isValidChar := by
      unfold Nat.isValidChar
      omega
    have hn : (Char.ofNat n).toNat = n := by
      rw [Char.ofNat, dif_pos hvalid]
      rfl
    rw [unitsOf, if_pos (by omega), hn]

theorem put_eq_some {oc : Option Char} {r : Option (List Char × List Char)} {s rest : List Char} :
    put oc r = some (s, rest) ↔ ∃ c s', oc = some c ∧ r = some (s', rest) ∧ s = c :: s' := by
  unfold put
  constructor
  · intro h
    obtain ⟨c, hc, h⟩ := Option.bind_eq_some_iff.mp h
    obtain ⟨⟨s', rest'⟩, hr, h⟩ := Option.bind_eq_some_iff.mp h
    cases h
    exact ⟨c, s', hc, hr, rfl⟩
  · rintro ⟨c, s', rfl, rfl, rfl⟩
    rfl

/-- Wherever a string is taken off a text, the value of the literal is the units of that string. -/
theorem literalBody_of_stringBody {cs s rest : List Char} (h : stringBody '"' cs = some (s, rest)) :
    literalBody cs = some (s.flatMap unitsOf, rest) := by
  fun_induction stringBody '"' cs generalizing s rest with
  | case1 => cases h
  | case2 x y z w cs ih =>
    obtain ⟨c, s, hc, hr, rfl⟩ := put_eq_some.mp h
    rw [literalBody, hexUnit?_of_unit? (by simp) hc, ih hr]
    rfl
  | case3 x y cs ih =>
    obtain ⟨c, s, hc, hr, rfl⟩ := put_eq_some.mp h
    rw [literalBody, hexUnit?_of_unit? (by simp) hc, ih hr]
    rfl
  | case4 cs ih => rw [literalBody, ih h]
  | case5 e cs hu hx hreturn hnewline ih =>
    rw [literalBody, if_pos hnewline, ih h] <;> assumption
  | case6 e cs hu hx hreturn hnewline ih =>
    obtain ⟨c, s, hc, hr, rfl⟩ := put_eq_some.mp h
    rw [literalBody, if_neg hnewline, hc, ih hr]
    · rfl
    all_goals assumption
  | case7 c cs _ _ _ _ hquote =>
    cases h
    rw [literalBody, if_pos hquote]
    · rfl
    all_goals assumption
  | case8 c cs _ _ _ _ hquote hnewline => cases h
  | case9 c cs _ _ _ _ hquote hnewline ih =>
    obtain ⟨c, s, hc, hr, rfl⟩ := put_eq_some.mp h
    cases hc
    rw [literalBody, if_neg hquote, if_neg hnewline, ih hr]
    · rfl
    all_goals assumption

/-- Two escapes for the halves of a pair are read; the scanner, which takes characters, has none for
    a half. -/
example : literal? "\"\\ud83d\\ude00\"".toList = some (units "😀", []) ∧
    stringBody '"' "\\ud83d\\ude00\"".toList = none := by
  decide

/-! ## §3. Quoted texts. -/

open Source (quote key isIdentifier isIdentifierChar literalChar)

theorem toList_quote (s : String) (rest : List Char) :
    (quote s).toList ++ rest = '"' :: (s.toList.flatMap literalChar ++ '"' :: rest) := by
  simp [quote]

/-- The value of a quoted text is its units, whatever follows. -/
theorem literal?_quote (s : String) (rest : List Char) :
    literal? ((quote s).toList ++ rest) = some (units s, rest) := by
  rw [toList_quote, literal?, literalBody_of_stringBody (stringBody_quoted s.toList rest)]
  rfl

theorem quote_append_inj {s t : String} {rest rest' : List Char}
    (h : (quote s).toList ++ rest = (quote t).toList ++ rest') : s = t ∧ rest = rest' := by
  have hvalue := literal?_quote s rest
  rw [h, literal?_quote] at hvalue
  obtain ⟨hunits, hrest⟩ := Prod.mk.inj (Option.some.inj hvalue)
  exact ⟨(units_injective hunits).symm, hrest.symm⟩

/-- A character that stands in a text as it is: it neither ends a line nor is a control. -/
def isVisible (c : Char) : Bool :=
  decide (0x20 ≤ c.toNat) && !isNewline c

theorem isVisible_iff {c : Char} :
    isVisible c = true ↔ 0x20 ≤ c.toNat ∧ isNewline c = false := by
  simp [isVisible]

/-- The characters with an escape of four digits are the controls and the two that end a line. -/
theorem all_isVisible_hexPadded {n : Nat} (hn : n < 0x20 ∨ n = 0x2028 ∨ n = 0x2029) :
    ('\\' :: 'u' :: Text.hexPadded 4 n).all isVisible = true := by
  rcases hn with hn | rfl | rfl
  · revert n
    decide
  · decide
  · decide

/-- Nothing that is written in a literal ends a line or is a control character. -/
theorem all_isVisible_literalChar (c : Char) : (literalChar c).all isVisible = true := by
  unfold literalChar
  split
  case h_8 =>
    split
    · next hcontrol =>
      simp only [Bool.or_eq_true, decide_eq_true_eq, beq_iff_eq, or_assoc] at hcontrol
      exact all_isVisible_hexPadded hcontrol
    · next hplain =>
      simp only [Bool.or_eq_true, decide_eq_true_eq, beq_iff_eq, not_or] at hplain
      simp [isVisible, isNewline]
      omega
  all_goals decide

theorem quote_visible {s : String} {c : Char} (h : c ∈ (quote s).toList) :
    0x20 ≤ c.toNat ∧ isNewline c = false := by
  have hquote : 0x20 ≤ '"'.toNat ∧ isNewline '"' = false := by decide
  rw [← List.append_nil (quote s).toList, toList_quote] at h
  rcases List.mem_cons.mp h with rfl | h
  · exact hquote
  rcases List.mem_append.mp h with h | h
  · obtain ⟨d, -, hd⟩ := List.mem_flatMap.mp h
    exact isVisible_iff.mp (List.all_eq_true.mp (all_isVisible_literalChar d) c hd)
  · cases List.mem_singleton.mp h
    exact hquote

/-! ## §4. Keys. -/

/-- A bare key is a character and then others that may all stand in an identifier. -/
theorem isIdentifierChar_of_mem {s : String} (h : isIdentifier s = true) :
    s.toList ≠ [] ∧ ∀ c ∈ s.toList, isIdentifierChar c = true := by
  unfold isIdentifier at h
  cases hs : s.toList with
  | nil => simp [hs] at h
  | cons c cs =>
    rw [hs] at h
    simp only [Bool.and_eq_true, List.all_eq_true] at h
    exact ⟨List.cons_ne_nil c cs, List.forall_mem_cons.mpr ⟨h.1.1, h.2⟩⟩

/-- A bare key does not start like a quoted one. -/
theorem bare_ne_quote {s t : String} (h : isIdentifier s = true) (rest rest' : List Char) :
    s.toList ++ rest ≠ (quote t).toList ++ rest' := by
  obtain ⟨hsome, hall⟩ := isIdentifierChar_of_mem h
  cases hs : s.toList with
  | nil => exact absurd hs hsome
  | cons c cs =>
    rw [toList_quote]
    intro heq
    have hc : isIdentifierChar c = true := hall c (by rw [hs]; exact List.mem_cons_self)
    obtain ⟨rfl, -⟩ := List.cons.inj heq
    exact absurd hc (by decide)

/-- A key and the colon behind it tell where the key ends and which it is. -/
theorem key_append_inj {s t : String} {rest rest' : List Char}
    (h : (key s).toList ++ ':' :: rest = (key t).toList ++ ':' :: rest') :
    s = t ∧ rest = rest' := by
  unfold key at h
  cases hs : isIdentifier s with
  | true =>
    cases ht : isIdentifier t with
    | true =>
      rw [if_pos hs, if_pos ht] at h
      have hcolon (r : List Char) : Ends isIdentifierChar (':' :: r) := by
        rintro _ ⟨⟩
        rfl
      have hname := congrArg (List.takeWhile isIdentifierChar) h
      rw [(hcolon rest).takeWhile (isIdentifierChar_of_mem hs).2,
        (hcolon rest').takeWhile (isIdentifierChar_of_mem ht).2] at hname
      rw [hname] at h
      exact ⟨String.toList_inj.mp hname, (List.cons.inj (List.append_cancel_left h)).2⟩
    | false =>
      rw [if_pos hs, if_neg (by simp [ht])] at h
      exact absurd h (bare_ne_quote hs _ _)
  | false =>
    rw [if_neg (by simp [hs])] at h
    cases ht : isIdentifier t with
    | true =>
      rw [if_pos ht] at h
      exact absurd h.symm (bare_ne_quote ht _ _)
    | false =>
      rw [if_neg (by simp [ht])] at h
      obtain ⟨hst, hrest⟩ := quote_append_inj h
      exact ⟨hst, (List.cons.inj hrest).2⟩

/-- A quoted text is one string literal whatever follows: the scanner takes it for that text, and
    its value is the units of that text, which determine it.  It stands on one line without control
    characters.  So no two texts are quoted alike, and no two keys are printed alike. -/
theorem quote_reads_back :
    (∀ (s : String) (rest : List Char),
      (∀ divides, scan divides ((quote s).toList ++ rest) = some (some (.string s), rest)) ∧
      literal? ((quote s).toList ++ rest) = some (units s, rest)) ∧
    Function.Injective units ∧
    (∀ (s : String), ∀ c ∈ (quote s).toList, 0x20 ≤ c.toNat ∧ isNewline c = false) ∧
    Function.Injective quote ∧ Function.Injective key := by
  refine ⟨fun s rest => ⟨fun _ => scan_quote s rest, literal?_quote s rest⟩, units_injective,
    fun s c hc => quote_visible hc, ?_, ?_⟩
  · intro s t h
    have htexts : (quote s).toList ++ [] = (quote t).toList ++ [] := by rw [h]
    exact (quote_append_inj htexts).1
  · intro s t h
    have hkeys : (key s).toList ++ [':'] = (key t).toList ++ [':'] := by rw [h]
    exact (key_append_inj hkeys).1

end Resumable.Reading
