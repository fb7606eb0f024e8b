/-
  Resumable.Proofs.Source.Tokens — the tokens of source text.

  `scan` takes one token, one blank or one comment off the front of a text, as much of it as goes
  together: a name ends where no letter or digit of it follows, and a mark is the longest of the
  marks that the text starts with.  A slash is the one character that the text alone does not
  settle: it divides, or it opens a regular expression, and the reader of the tokens knows which.

  §3 says how the pieces of a printed expression are scanned.  Marks, names and numbers end where
  the text behind them ends them (`Ends`); a literal of a string ends with its quote, and is the
  string that was quoted (`scan_quote`).
-/
import Resumable.Source.Literal
import Resumable.Text.Category

namespace Resumable.Reading

/-- A token. -/
inductive Token where
  /-- A name or a reserved word. -/
  | word (s : String)
  /-- A number in its spelling. -/
  | num (text : String)
  /-- A string literal, as the string that it stands for. -/
  | string (value : String)
  | regexp (pattern flags : String)
  | mark (s : String)
  deriving DecidableEq, Repr

/-! ## §1. Characters. -/

/-- Whether a character is in a general category. -/
def inCategory (name : String) (c : Char) : Bool :=
  ((Text.categoryRanges? name).getD []).any fun r => r.1 ≤ c.toNat && c.toNat ≤ r.2

/-- Whether a character starts a name: a letter, a dollar sign or a low line. -/
def startsWord (c : Char) : Bool :=
  if c.toNat < 0x80 then c == '$' || c == '_' || c.isAlpha
  else inCategory "L" c || inCategory "Nl" c

/-- Whether a character may stand in a name behind the first one. -/
def inWord (c : Char) : Bool :=
  startsWord c ||
    if c.toNat < 0x80 then c.isDigit
    else ["Mn", "Mc", "Nd", "Pc"].any (inCategory · c) || c.toNat == 0x200C || c.toNat == 0x200D

/-- Whether a character ends a line. -/
def isNewline (c : Char) : Bool := [0xA, 0xD, 0x2028, 0x2029].contains c.toNat

/-- Whether a character is white space or ends a line. -/
def isBlank (c : Char) : Bool :=
  isNewline c || [0x9, 0xB, 0xC, 0x20, 0xA0, 0xFEFF].contains c.toNat ||
    (0x80 ≤ c.toNat && inCategory "Zs" c)

/-- Whether a text is a name or a reserved word, without escapes. -/
def isName (s : String) : Bool :=
  match s.toList with
  | [] => false
  | c :: cs => startsWord c && cs.all inWord

/-- Whether a text is a decimal integer without a leading zero. -/
def isInteger (s : String) : Bool :=
  match s.toList with
  | [] => false
  | c :: cs => c.isDigit && cs.all Char.isDigit && (c != '0' || cs.isEmpty)

/-! ## §2. Tokens. -/

/-- A word and what follows it. -/
def wordOf (cs : List Char) : Token × List Char :=
  (.word (String.ofList (cs.takeWhile inWord)), cs.dropWhile inWord)

/-- The integer part of a decimal number; nothing follows a zero in front. -/
def wholePart : List Char → List Char × List Char
  | '0' :: rest => (['0'], rest)
  | cs => (cs.takeWhile Char.isDigit, cs.dropWhile Char.isDigit)

/-- The fraction of a decimal number, with its point. -/
def fraction : List Char → List Char × List Char
  | '.' :: rest => ('.' :: rest.takeWhile Char.isDigit, rest.dropWhile Char.isDigit)
  | cs => ([], cs)

/-- The digits of an exponent behind what stands in front of them. -/
def exponentDigits (front all cs : List Char) : List Char × List Char :=
  if (cs.takeWhile Char.isDigit).isEmpty then ([], all)
  else (front ++ cs.takeWhile Char.isDigit, cs.dropWhile Char.isDigit)

/-- The exponent of a decimal number. -/
def exponent : List Char → List Char × List Char
  | e :: '+' :: rest =>
    if e == 'e' || e == 'E' then exponentDigits [e, '+'] (e :: '+' :: rest) rest
    else ([], e :: '+' :: rest)
  | e :: '-' :: rest =>
    if e == 'e' || e == 'E' then exponentDigits [e, '-'] (e :: '-' :: rest) rest
    else ([], e :: '-' :: rest)
  | e :: rest =>
    if e == 'e' || e == 'E' then exponentDigits [e] (e :: rest) rest else ([], e :: rest)
  | [] => ([], [])

/-- A decimal number and what follows it. -/
def decimal (cs : List Char) : List Char × List Char :=
  let whole := wholePart cs
  let part := fraction whole.2
  let power := exponent part.2
  (whole.1 ++ part.1 ++ power.1, power.2)

/-- A hexadecimal number and what follows it. -/
def hexadecimal? : List Char → Option (List Char × List Char)
  | '0' :: x :: rest =>
    let digits := rest.takeWhile fun c => (Text.hexValue? c).isSome
    if (x == 'x' || x == 'X') && !digits.isEmpty then
      some ('0' :: x :: digits, rest.dropWhile fun c => (Text.hexValue? c).isSome)
    else none
  | _ => none

/-- A number and what follows it, which is no name and no digit. -/
def number? (cs : List Char) : Option (Token × List Char) :=
  let (text, rest) := (hexadecimal? cs).getD (decimal cs)
  if rest.head?.any (fun c => startsWord c || c.isDigit) then none
  else some (.num (String.ofList text), rest)

/-- The character with a number in hexadecimal digits; half of a pair is none. -/
def unit? (digits : List Char) : Option Char := do
  let values ← digits.mapM Text.hexValue?
  let n := values.foldl (fun n d => 16 * n + d) 0
  if 0xD800 ≤ n && n < 0xE000 then none else some (Char.ofNat n)

/-- The character that one character behind a backslash stands for. -/
def escaped? (c : Char) (rest : List Char) : Option Char :=
  match c with
  | 'b' => some '\x08'
  | 't' => some '\t'
  | 'n' => some '\n'
  | 'v' => some '\x0b'
  | 'f' => some '\x0c'
  | 'r' => some '\r'
  | '0' => if rest.head?.any Char.isDigit then none else some '\x00'
  | c => if c.isDigit || c == 'x' || c == 'u' then none else some c

/-- A character in front of the rest of a string. -/
def put (c : Option Char) (r : Option (List Char × List Char)) :
    Option (List Char × List Char) := do
  let c ← c
  let (s, rest) ← r
  return (c :: s, rest)

/-- The string up to its closing quote, and what follows the quote.  A line may be continued
    behind a backslash. -/
def stringBody (quote : Char) : List Char → Option (List Char × List Char)
  | [] => none
  | '\\' :: 'u' :: x :: y :: z :: w :: rest => put (unit? [x, y, z, w]) (stringBody quote rest)
  | '\\' :: 'x' :: x :: y :: rest => put (unit? [x, y]) (stringBody quote rest)
  | '\\' :: '\r' :: '\n' :: rest => stringBody quote rest
  | '\\' :: e :: rest =>
    if isNewline e then stringBody quote rest
    else put (escaped? e rest) (stringBody quote rest)
  | c :: rest =>
    if c == quote then some ([], rest)
    else if isNewline c then none
    else put (some c) (stringBody quote rest)

/-- A string literal behind its opening quote. -/
def string? (quote : Char) (cs : List Char) : Option (Token × List Char) := do
  let (s, rest) ← stringBody quote cs
  return (.string (String.ofList s), rest)

/-- The pattern of a regular expression up to the closing slash, and what follows the slash.  A
    slash in a class does not close it. -/
def patternBody (inClass : Bool) : List Char → Option (List Char × List Char)
  | [] => none
  | '\\' :: c :: rest => if isNewline c then none else do
      let (s, rest) ← patternBody inClass rest
      return ('\\' :: c :: s, rest)
  | c :: rest =>
    if isNewline c then none
    else if c == '/' && !inClass then some ([], rest)
    else do
      let (s, rest) ←
        patternBody (if c == '[' then true else if c == ']' then false else inClass) rest
      return (c :: s, rest)

/-- A regular expression behind its opening slash. -/
def regexp? (cs : List Char) : Option (Token × List Char) := do
  let (pattern, rest) ← patternBody false cs
  return (.regexp (String.ofList pattern) (String.ofList (rest.takeWhile inWord)),
    rest.dropWhile inWord)

/-- What follows a comment that ends with a star and a slash. -/
def behindComment : List Char → Option (List Char)
  | [] => none
  | '*' :: '/' :: rest => some rest
  | _ :: rest => behindComment rest

/-- The marks, longer ones first. -/
def marks : List String :=
  [">>>=", "===", "!==", ">>>", "<<=", ">>=", "<=", ">=", "==", "!=", "++", "--", "<<", ">>",
    "&&", "||", "+=", "-=", "*=", "%=", "&=", "|=", "^=", "/=", "\x7b", "\x7d", "(", ")", "[", "]",
    ".", ";", ",", "<", ">", "+", "-", "*", "%", "&", "|", "^", "!", "~", "?", ":", "=", "/"]

/-- The longest mark that a text starts with. -/
def mark? (cs : List Char) : Option (Token × List Char) :=
  (marks.find? fun m => m.toList.isPrefixOf cs).map fun m => (.mark m, cs.drop m.toList.length)

/-- What a text starts with, and what follows: a token, or nothing where there is a blank or a
    comment.  `divides` says how a slash is read. -/
def scan (divides : Bool) : List Char → Option (Option Token × List Char)
  | [] => none
  | c :: cs =>
    if startsWord c then some ((wordOf (c :: cs)).map some id)
    else if c.isDigit || (c == '.' && cs.head?.any Char.isDigit) then
      (number? (c :: cs)).map (Prod.map some id)
    else if c == '"' || c == '\x27' then (string? c cs).map (Prod.map some id)
    else if isBlank c then some (none, cs)
    else if c == '/' && cs.head? == some '/' then
      some (none, cs.dropWhile fun c => !isNewline c)
    else if c == '/' && cs.head? == some '*' then
      (behindComment cs.tail).map fun rest => (none, rest)
    else if c == '/' && !divides then (regexp? cs).map (Prod.map some id)
    else (mark? (c :: cs)).map (Prod.map some id)

/-! ## §3. Printed pieces. -/

/-- No character of a kind follows. -/
def Ends (p : Char → Bool) (rest : List Char) : Prop := ∀ c ∈ rest.head?, p c = false

section

variable {p q : Char → Bool} {cs rest : List Char} {d : Bool}

theorem Ends.mono (h : Ends q rest) (hpq : ∀ c, p c = true → q c = true) : Ends p rest := by
  intro c hc
  cases hp : p c with
  | false => rfl
  | true => exact (hpq c hp).symm.trans (h c hc)

theorem Ends.any (h : Ends p rest) : rest.head?.any p = false := by
  cases rest with
  | nil => rfl
  | cons c rest => exact h c rfl

theorem Ends.takeWhile (h : Ends p rest) (hcs : ∀ c ∈ cs, p c = true) :
    (cs ++ rest).takeWhile p = cs := by
  rw [List.takeWhile_append_of_pos hcs]
  cases rest with
  | nil => simp
  | cons c rest => simp [h c rfl]

theorem Ends.dropWhile (h : Ends p rest) (hcs : ∀ c ∈ cs, p c = true) :
    (cs ++ rest).dropWhile p = rest := by
  rw [List.dropWhile_append_of_pos hcs]
  cases rest with
  | nil => rfl
  | cons c rest => simp [h c rfl]

theorem digit_cases {c : Char} (h : c.isDigit = true) : ∃ k < 10, c = Char.ofNat (0x30 + k) := by
  have hc : 0x30 ≤ c.toNat ∧ c.toNat ≤ 0x39 := Char.isDigit_iff_toNat.mp h
  refine ⟨c.toNat - 0x30, by omega, ?_⟩
  rw [Nat.add_sub_cancel' hc.1, Char.ofNat_toNat]

/-- A digit may stand in a name but does not start one. -/
theorem inWord_digit {c : Char} (h : c.isDigit = true) :
    startsWord c = false ∧ inWord c = true := by
  obtain ⟨k, hk, rfl⟩ := digit_cases h
  revert k
  decide

theorem inWord_of_startsWord {c : Char} (h : startsWord c = true) : inWord c = true := by
  rw [inWord, h, Bool.true_or]

/-- A name goes on to the first character that cannot stand in it. -/
theorem scan_name {s : String} (hs : isName s = true) (hr : Ends inWord rest) :
    scan d (s.toList ++ rest) = some (some (.word s), rest) := by
  unfold isName at hs
  cases hl : s.toList with
  | nil => simp [hl] at hs
  | cons c cs =>
    rw [hl] at hs
    obtain ⟨hc, hcs⟩ := Bool.and_eq_true_iff.mp hs
    have hall : ∀ x ∈ c :: cs, inWord x = true :=
      List.forall_mem_cons.mpr ⟨inWord_of_startsWord hc, List.all_eq_true.mp hcs⟩
    rw [List.cons_append, scan, if_pos hc, wordOf, ← List.cons_append, hr.takeWhile hall,
      hr.dropWhile hall, ← hl, String.ofList_toList]
    rfl

/-- What ends an integer: anything that is no part of a number or of a name. -/
def goesOn (c : Char) : Bool := inWord c || c == '.'

theorem decimal_integer {c : Char} (hc : c.isDigit = true) (hcs : ∀ x ∈ cs, x.isDigit = true)
    (hz : c = '0' → cs = []) (hr : Ends goesOn rest) :
    decimal (c :: cs ++ rest) = (c :: cs, rest) := by
  have hdigit : Ends Char.isDigit rest := hr.mono fun x hx => by simp [goesOn, (inWord_digit hx).2]
  have hwhole : wholePart (c :: cs ++ rest) = (c :: cs, rest) := by
    by_cases h0 : c = '0'
    · subst h0
      rw [hz rfl]
      rfl
    · have hall : ∀ x ∈ c :: cs, x.isDigit = true := List.forall_mem_cons.mpr ⟨hc, hcs⟩
      rw [wholePart, hdigit.takeWhile hall, hdigit.dropWhile hall]
      intro rest' h
      cases h
      exact h0 rfl
  have hpart : fraction rest = ([], rest) := by
    rw [fraction]
    rintro rest' rfl
    exact Bool.noConfusion (hr '.' rfl)
  have hpower : exponent rest = ([], rest) := by
    unfold exponent
    -- an exponent starts with a letter, which would go on
    have hletter : ∀ e ∈ rest.head?, (e == 'e' || e == 'E') = false := by
      intro e he
      cases hE : e == 'e' || e == 'E' with
      | false => rfl
      | true =>
        rcases Bool.or_eq_true_iff.mp hE with h | h <;> cases beq_iff_eq.mp h <;> cases hr _ he
    split
    · rw [hletter _ rfl]
      rfl
    · rw [hletter _ rfl]
      rfl
    · rw [hletter _ rfl]
      rfl
    · rfl
  rw [decimal, hwhole, hpart, hpower]
  simp

theorem hexadecimal?_integer {c : Char} (hz : c = '0' → cs = []) (hr : Ends goesOn rest) :
    hexadecimal? (c :: cs ++ rest) = none := by
  by_cases h0 : c = '0'
  · subst h0
    rw [hz rfl]
    cases rest with
    | nil => rfl
    | cons x rest =>
      have hx : (x == 'x' || x == 'X') = false := by
        cases hX : x == 'x' || x == 'X' with
        | false => rfl
        | true =>
          rcases Bool.or_eq_true_iff.mp hX with h | h <;> cases beq_iff_eq.mp h <;> cases hr _ rfl
      simp [hexadecimal?, hx]
  · rw [hexadecimal?]
    intro x rest' h
    exact h0 (List.cons.inj h).1

/-- An integer goes on to the first character that is no digit. -/
theorem scan_integer {s : String} (hs : isInteger s = true) (hr : Ends goesOn rest) :
    scan d (s.toList ++ rest) = some (some (.num s), rest) := by
  unfold isInteger at hs
  cases hl : s.toList with
  | nil => simp [hl] at hs
  | cons c cs =>
    rw [hl] at hs
    simp only [Bool.and_eq_true, Bool.or_eq_true, bne_iff_ne, List.isEmpty_iff,
      List.all_eq_true] at hs
    obtain ⟨⟨hc, hcs⟩, hz⟩ := hs
    have hzero : c = '0' → cs = [] := fun h => hz.resolve_left (not_not_intro h)
    have hstop : rest.head?.any (fun c => startsWord c || c.isDigit) = false := by
      refine (hr.mono fun x hx => ?_).any
      rcases Bool.or_eq_true_iff.mp hx with hx | hx
      · simp [goesOn, inWord_of_startsWord hx]
      · simp [goesOn, inWord_digit hx]
    rw [List.cons_append, scan, if_neg (by simp [(inWord_digit hc).1]), if_pos (by simp [hc]),
      ← List.cons_append, number?, hexadecimal?_integer hzero hr, Option.getD_none,
      decimal_integer hc hcs hzero hr]
    simp only [hstop, Bool.false_eq_true, if_false, ← hl, String.ofList_toList]
    rfl

/-! ### Strings. -/

theorem stringBody_plain {quote c : Char} (hc : c ≠ '\\') (rest : List Char) :
    stringBody quote (c :: rest) = if c == quote then some ([], rest)
      else if isNewline c then none else put (some c) (stringBody quote rest) := by
  rw [stringBody]
  · exact fun _ _ _ _ _ h => absurd h hc
  · exact fun _ _ _ h => absurd h hc
  · exact fun _ h => absurd h hc
  · exact fun _ _ h => absurd h hc

theorem unit?_control {n : Nat} (h : n < 0x20) :
    unit? (Text.hexPadded 4 n) = some (Char.ofNat n) := by
  revert n
  decide

/-- A character of a string is read back from the way it is written. -/
theorem stringBody_literalChar (c : Char) (rest : List Char) :
    stringBody '"' (Source.literalChar c ++ rest) = put (some c) (stringBody '"' rest) := by
  unfold Source.literalChar
  split
  · rfl
  · rfl
  · rfl
  · rfl
  · rfl
  · rfl
  · rfl
  · next hquote hslash hline hreturn _ _ _ =>
    split
    · next hcontrol =>
      -- four digits stand for the character again
      have hunit : unit? (Text.hexPadded 4 c.toNat) = some c := by
        simp only [Bool.or_eq_true, decide_eq_true_eq, beq_iff_eq] at hcontrol
        rcases hcontrol with (h | h) | h
        · rw [unit?_control h, Char.ofNat_toNat]
        · rw [h, ← Char.ofNat_toNat c, h]
          decide
        · rw [h, ← Char.ofNat_toNat c, h]
          decide
      show put (unit? (Text.hexPadded 4 c.toNat)) _ = _
      rw [hunit]
      rfl
    · next hcontrol =>
      have hplain : isNewline c = false := by
        simp only [Bool.or_eq_true, decide_eq_true_eq, beq_iff_eq, not_or] at hcontrol
        simp [isNewline]
        omega
      have hquote' : ¬(c == '"') = true := fun h => hquote (beq_iff_eq.mp h)
      rw [List.singleton_append, stringBody_plain hslash, if_neg hquote', hplain,
        if_neg Bool.false_ne_true]

theorem stringBody_quoted (cs rest : List Char) :
    stringBody '"' (cs.flatMap Source.literalChar ++ '"' :: rest) = some (cs, rest) := by
  induction cs with
  | nil => exact stringBody_plain (by decide) rest
  | cons c cs ih =>
    rw [List.flatMap_cons, List.append_assoc, stringBody_literalChar, ih]
    rfl

/-- A quoted string is read back, whatever follows. -/
theorem scan_quote (s : String) (rest : List Char) :
    scan d ((Source.quote s).toList ++ rest) = some (some (.string s), rest) := by
  have hquote : (Source.quote s).toList ++ rest =
      '"' :: (s.toList.flatMap Source.literalChar ++ '"' :: rest) := by
    simp [Source.quote]
  rw [hquote]
  show (string? '"' _).map _ = _
  rw [string?, stringBody_quoted]
  show some (some (Token.string (String.ofList s.toList)), rest) = _
  rw [String.ofList_toList]

end

end Resumable.Reading
