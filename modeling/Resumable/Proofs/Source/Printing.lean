/-
  Resumable.Proofs.Source.Printing — what a layout is read as.

  A layout is taken apart into what it says and what it is read as.  `Prints` says that a layout
  spells some characters, and that these are scanned as some tokens wherever what follows does not
  join their last one.  Layouts are put together from left to right, so the only thing to look at
  is what stands at each seam (`Prints.append`).  Every slash of such a text divides, and the
  grammar lets it divide where it stands (`Scans.lexed`).

  The levels of the printer are goals of the grammar, from the loosest to the tightest
  (`Derived`), and what is derived for a level is derived for any looser one.  So an operand that
  binds tightly enough stands as it is, and any other one is derived in parentheses.

  Main results:
    * `Shows.operand`  — an operand shows its tokens in its place;
    * `Derived.operand` — they are read as the operand there;
    * `prints_before`  — an operator in front of an operand does not join it.
-/
import Resumable.Proofs.Source.Grammar
import Resumable.Source.Printer

namespace Resumable.Reading

open Source (Layout Style)
open Source.Layout (ofText)

/-! ## §1. Scanning where every slash divides. -/

/-- The tokens of a text without regular expressions. -/
inductive Scans : List Char → List Token → Prop
  | done : Scans [] []
  | blank {cs rest : List Char} {ts : List Token} (h : scan true cs = some (none, rest))
      (others : Scans rest ts) : Scans cs ts
  | token {cs rest : List Char} {t : Token} {ts : List Token}
      (h : scan true cs = some (some t, rest)) (others : Scans rest ts) : Scans cs (t :: ts)

theorem mark_slash (m : String) (hm : m ∈ marks) (cs : List Char)
    (h : m.toList.isPrefixOf ('/' :: cs) = true) : m = "/" ∨ m = "/=" := by
  have hall : ∀ m ∈ marks, m.toList ≠ [] ∧ (m.toList.head? = some '/' → m = "/" ∨ m = "/=") := by
    decide
  obtain ⟨hne, hslash⟩ := hall m hm
  cases hl : m.toList with
  | nil => exact absurd hl hne
  | cons c l =>
    rw [hl, List.isPrefixOf_cons_cons, Bool.and_eq_true, beq_iff_eq] at h
    exact hslash (by rw [hl, h.1]; rfl)

theorem scan_slash (d : Bool) (cs : List Char) : scan d ('/' :: cs) =
    if cs.head? == some '/' then some (none, cs.dropWhile fun c => !isNewline c)
    else if cs.head? == some '*' then (behindComment cs.tail).map fun rest => (none, rest)
    else if !d then (regexp? cs).map (Prod.map some id)
    else (mark? ('/' :: cs)).map (Prod.map some id) := rfl

/-- How a slash is read matters only where there is one. -/
theorem scan_divides {cs rest : List Char} {t : Option Token}
    (h : scan true cs = some (t, rest)) (hslash : t ≠ some (.mark "/"))
    (hslash' : t ≠ some (.mark "/=")) (d : Bool) : scan d cs = some (t, rest) := by
  cases cs with
  | nil => exact h
  | cons c cs =>
    by_cases hc : c = '/'
    · subst hc
      rw [scan_slash] at h ⊢
      split at h
      · next hline => rw [if_pos hline, h]
      split at h
      · next hline hstar => rw [if_neg hline, if_pos hstar, h]
      -- a mark that starts with a slash is one that divides
      obtain ⟨⟨m, rest'⟩, hm, ⟨rfl⟩⟩ := Option.map_eq_some_iff.mp h
      obtain ⟨s, hs, ⟨rfl⟩⟩ := Option.map_eq_some_iff.mp hm
      have hfront := List.find?_some hs
      rcases mark_slash s (List.mem_of_find?_eq_some hs) cs hfront with rfl | rfl
      · exact absurd rfl hslash
      · exact absurd rfl hslash'
    · have hc' : (c == '/') = false := by simpa using hc
      rw [← h]
      simp [scan, hc']

theorem Scans.lexed {opens : List Token → Node → Prop} {front ts : List Token} {cs : List Char}
    {e : Node} (h : Scans cs ts) (d : Derives opens .expression (front ++ ts) [e]) :
    Lexed opens front cs ts := by
  induction h generalizing front with
  | done => exact .done
  | blank hs _ ih =>
    by_cases hd : Divides opens front
    · exact .blank (iff_of_true rfl hd) hs (ih d)
    · exact .blank (iff_of_false Bool.false_ne_true hd) (scan_divides hs nofun nofun false) (ih d)
  | @token cs rest t ts hs _ ih =>
    have hothers : Lexed opens (front ++ [t]) rest ts := ih (by rwa [List.append_assoc])
    by_cases hd : Divides opens front
    · exact .token (iff_of_true rfl hd) hs hothers
    · refine .token (iff_of_false Bool.false_ne_true hd) (scan_divides hs ?_ ?_ false) hothers
      · rintro ⟨⟩
        exact hd ⟨_, _, _, .inl rfl, d⟩
      · rintro ⟨⟩
        exact hd ⟨_, _, _, .inr rfl, d⟩

/-! ## §2. Layouts and what they are read as. -/

theorem write_append (st : Style) (l l' : Layout) :
    st.write (l ++ l') = st.write l ++ st.write l' := by
  induction l with
  | nil => simp [Style.write]
  | cons p l ih => simp [Style.write, ih, String.append_assoc]

/-- A layout without line breaks spells some characters. -/
inductive Spells : Layout → List Char → Prop
  | nil : Spells [] []
  | cons (s : String) {l : Layout} {cs : List Char} (h : Spells l cs) :
      Spells (.text s :: l) (s.toList ++ cs)

namespace Spells

variable {l l' : Layout} {cs cs' : List Char}

theorem text (s : String) : Spells (ofText s) s.toList := by
  have h := Spells.cons s .nil
  rwa [List.append_nil] at h

theorem append (h : Spells l cs) (h' : Spells l' cs') : Spells (l ++ l') (cs ++ cs') := by
  induction h with
  | nil => exact h'
  | cons s _ ih =>
    rw [List.cons_append, List.append_assoc]
    exact .cons s ih

/-- It is written as these characters in every style. -/
theorem write (h : Spells l cs) (st : Style) : (st.write l).toList = cs := by
  induction h with
  | nil => rfl
  | cons s _ ih => rw [Style.write, String.toList_append, ih, Style.piece]

theorem startsWith (h : Spells l cs) (c : Char) : l.startsWith c = (cs.head? == some c) := by
  induction h with
  | nil => rfl
  | cons s _ ih =>
    rw [Layout.startsWith]
    cases hs : s.toList with
    | nil => exact ih
    | cons d ds => rfl

end Spells

/-- A layout spells characters that are scanned as tokens in front of what may follow. -/
structure Prints (ok : List Char → Prop) (l : Layout) (cs : List Char) (ts : List Token) :
    Prop where
  spells : Spells l cs
  scans : ∀ rest us, ok rest → Scans rest us → Scans (cs ++ rest) (ts ++ us)

/-- Whether a character joins the last token of an expression; a point only joins a number. -/
def joins (tight : Bool) (c : Char) : Bool := inWord c || (c == '.' && !tight)

namespace Prints

variable {ok ok' : List Char → Prop} {l l' : Layout} {cs cs' : List Char} {ts ts' : List Token}

theorem weaken (h : Prints ok l cs ts) (hok : ∀ rest, ok' rest → ok rest) : Prints ok' l cs ts :=
  ⟨h.spells, fun rest us hr => h.scans rest us (hok rest hr)⟩

/-- Layouts one behind the other. -/
theorem append (h : Prints ok l cs ts) (h' : Prints ok' l' cs' ts')
    (hok : ∀ rest, ok' rest → ok (cs' ++ rest)) :
    Prints ok' (l ++ l') (cs ++ cs') (ts ++ ts') where
  spells := h.spells.append h'.spells
  scans rest us hr hs := by
    rw [List.append_assoc, List.append_assoc]
    exact h.scans _ _ (hok rest hr) (h'.scans rest us hr hs)

/-- Text that is one token. -/
theorem text {s : String} {t : Token}
    (h : ∀ rest, ok rest → scan true (s.toList ++ rest) = some (some t, rest)) :
    Prints ok (ofText s) s.toList [t] :=
  ⟨.text s, fun rest _ hr hs => .token (h rest hr) hs⟩

end Prints

/-! ## §3. Levels. -/

/-- The goal of a level of the printer below calls. -/
def goalOf : Nat → Goal
  | 0 | 1 => .expression
  | 2 => .assignment
  | 3 => .conditional
  | 14 => .unary
  | 15 => .updated
  | p => .tier (p - 4)

/-- Tokens derive an expression that binds at least as tightly as a level. -/
def Derived (opens : List Token → Node → Prop) (p : Nat) (ts : List Token) (e : Node) : Prop :=
  if 16 ≤ p then Derives opens .call ts [e] ∨ Derives opens .member ts [e]
  else Derives opens (goalOf p) ts [e]

section

variable {opens : List Token → Node → Prop} {p p' : Nat} {ts : List Token} {e : Node}

theorem Derives.leftHand (h : Derives opens .call ts [e] ∨ Derives opens .member ts [e]) :
    Derives opens .leftHand ts [e] := by
  rcases h with h | h
  · exact .lift .call h
  · exact .lift .construction (.lift .member h)

/-- What binds tightly binds less tightly as well. -/
theorem Derived.step (h : Derived opens (p + 1) ts e) : Derived opens p ts e := by
  unfold Derived at h ⊢
  match p with
  | 0 => exact h
  | 1 => exact .expression (.lastMember h)
  | 2 => exact .lift .conditional h
  | 3 => exact .lift .binary h
  | 4 | 5 | 6 | 7 | 8 | 9 | 10 | 11 | 12 => exact .lift (.tier _) h
  | 13 => exact .lift (.tier 9) (.lift .unary h)
  | 14 => exact .lift .updated h
  | 15 => exact .lift .leftHand (Derives.leftHand h)
  | p + 16 => simpa using h

theorem Derived.mono (h : Derived opens p ts e) (hp : p' ≤ p) : Derived opens p' ts e := by
  induction hp with
  | refl => exact h
  | step _ ih => exact ih h.step

end

/-! ## §4. Printed expressions. -/

/-- What may follow an expression: nothing that joins its last token. -/
def Follows (tight : Bool) : List Char → Prop := Ends (joins tight)

/-- Whether a point may follow an expression: it binds tightly, and it is no number. -/
def isTight (e : Node) : Bool := decide (16 ≤ Source.Precedence.ofNode e) && !Source.isNumber e

/-- A text starts with some character, and with none that makes an operator in front of it an
    assignment. -/
def Leads (cs : List Char) : Prop := ∃ c cs', cs = c :: cs' ∧ c ≠ '='

/-- A layout is scanned as some tokens in front of what may follow an expression. -/
def Shows (tight : Bool) (l : Layout) (ts : List Token) : Prop :=
  ∃ cs, Prints (Follows tight) l cs ts ∧ Leads cs

/-- Tokens in parentheses. -/
def grouped (ts : List Token) : List Token := .mark "(" :: (ts ++ [.mark ")"])

/-- The tokens of an operand in a place: in parentheses if it binds looser than the place asks
    for. -/
def operandTokens (least : Nat) (e : Node) (ts : List Token) : List Token :=
  if Source.Precedence.ofNode e < least then grouped ts else ts

section

variable {tight tight' : Bool} {e : Node} {l : Layout} {ts : List Token} {rest : List Char}

theorem follows_char (tight : Bool) {c : Char} (h : goesOn c = false) (cs : List Char) :
    Follows tight (c :: cs) := by
  rintro d ⟨⟩
  obtain ⟨hword, hpoint⟩ := Bool.or_eq_false_iff.mp h
  rw [joins, hword, hpoint, Bool.false_and, Bool.or_false]

theorem Follows.weaken (h : Follows tight' rest) (ht : tight' = true → tight = true) :
    Follows tight rest := by
  refine h.mono fun c hc => ?_
  rcases Bool.or_eq_true_iff.mp hc with hword | hpoint
  · rw [joins, hword, Bool.true_or]
  · obtain ⟨hpoint, hloose⟩ := Bool.and_eq_true_iff.mp hpoint
    have hloose' : tight' = false := by
      cases tight' with
      | false => rfl
      | true => simp [ht rfl] at hloose
    rw [joins, hpoint, hloose']
    simp

theorem Leads.append {cs : List Char} (h : Leads cs) (cs' : List Char) : Leads (cs ++ cs') := by
  obtain ⟨c, cs, rfl, hc⟩ := h
  exact ⟨c, cs ++ cs', rfl, hc⟩

theorem Shows.weaken (h : Shows tight l ts) (ht : tight' = true → tight = true) :
    Shows tight' l ts := by
  obtain ⟨cs, hprints, hleads⟩ := h
  exact ⟨cs, hprints.weaken fun rest hr => hr.weaken ht, hleads⟩

theorem prints_mark {s : String} (ok : List Char → Prop)
    (h : ∀ rest, scan true (s.toList ++ rest) = some (some (.mark s), rest)) :
    Prints ok (ofText s) s.toList [.mark s] :=
  .text fun rest _ => h rest

/-- An expression in parentheses ends where they do. -/
theorem Shows.parens (h : Shows tight l ts) (tight' : Bool) :
    Shows tight' l.parens (grouped ts) := by
  obtain ⟨cs, hprints, -⟩ := h
  have hopen : Prints (fun _ => True) (ofText "(") "(".toList [.mark "("] :=
    prints_mark _ fun _ => rfl
  have hclose : Prints (Follows tight') (ofText ")") ")".toList [.mark ")"] :=
    prints_mark _ fun _ => rfl
  exact ⟨_, (hopen.append hprints fun _ _ => trivial).append hclose
    fun rest _ => follows_char tight rfl rest, ⟨'(', _, rfl, by decide⟩⟩

/-- An operand is put in parentheses if its place asks for more than it binds. -/
theorem Shows.operand (h : Shows (isTight e) l ts) (least : Nat) (he : e.isExpression = true) :
    ∃ l', Source.asOperand least e (.ok l) = .ok l' ∧
      Shows (decide (16 ≤ least) && !Source.isNumber e) l' (operandTokens least e ts) := by
  rw [Source.asOperand, if_pos he, operandTokens]
  by_cases hlt : Source.Precedence.ofNode e < least
  · exact ⟨l.parens, congrArg Except.ok (if_pos hlt), by rw [if_pos hlt]; exact h.parens _⟩
  · have hle : least ≤ Source.Precedence.ofNode e := Nat.le_of_not_lt hlt
    refine ⟨l, congrArg Except.ok (if_neg hlt), ?_⟩
    rw [if_neg hlt]
    refine h.weaken fun ht => ?_
    simp only [Bool.and_eq_true, decide_eq_true_eq] at ht
    simp only [isTight, Bool.and_eq_true, decide_eq_true_eq]
    exact ⟨Nat.le_trans ht.1 hle, ht.2⟩

section

variable {opens : List Token → Node → Prop} {p least : Nat} {n : Node}

/-- In parentheses any expression binds as tightly as can be. -/
theorem Derived.grouped (h : Derived opens p ts n) : Derives opens .member (grouped ts) [n] :=
  .lift .primary (.parens (h.mono (Nat.zero_le p)))

/-- What an operand is read as binds as tightly as its place asks for. -/
theorem Derived.operand (h : Derived opens (Source.Precedence.ofNode e) ts n)
    (hleast : least ≤ 18) : Derived opens least (operandTokens least e ts) n := by
  unfold operandTokens
  split
  · have hgrouped : Derived opens 18 (Reading.grouped ts) n := .inr h.grouped
    exact hgrouped.mono hleast
  · next hlt => exact h.mono (Nat.le_of_not_lt hlt)

end

/-! ## §5. Operators. -/

theorem prints_comma (ok : List Char → Prop) : Prints ok (ofText ", ") ", ".toList [.mark ","] :=
  ⟨.text _, fun _ _ _ hs => .token rfl (.blank rfl hs)⟩

theorem scan_operators : ∀ ops ∈ tiers, ∀ op ∈ ops, ∀ rest,
    scan true (op.toList ++ ' ' :: rest) = some (some (operator op), ' ' :: rest) := by
  simp only [tiers, List.forall_mem_cons]
  and_intros
  all_goals first | exact fun _ => rfl | exact nofun

theorem scan_operator {op : String} {k : Nat} (h : op ∈ tiers.getD k []) (rest : List Char) :
    scan true (op.toList ++ ' ' :: rest) = some (some (operator op), ' ' :: rest) := by
  have hk : k < tiers.length := tier_lt h
  rw [List.getD_eq_getElem?_getD, List.getElem?_eq_getElem hk, Option.getD_some] at h
  exact scan_operators _ (List.getElem_mem hk) op h rest

theorem prints_operator {op : String} {k : Nat} (h : op ∈ tiers.getD k []) :
    Prints (fun _ => True) (ofText (" " ++ op ++ " ")) (" " ++ op ++ " ").toList [operator op] where
  spells := .text _
  scans rest us _ hs := by
    have htext : (" " ++ op ++ " ").toList ++ rest = ' ' :: (op.toList ++ ' ' :: rest) := by simp
    rw [htext]
    exact .blank rfl (.token (scan_operator h rest) (.blank rfl hs))

theorem scan_assignment : ∀ op ∈ assignments, ∀ rest,
    scan true ((op ++ "=").toList ++ ' ' :: rest) =
      some (some (.mark (op ++ "=")), ' ' :: rest) := by
  simp only [assignments, List.forall_mem_cons]
  exact ⟨fun _ => rfl, fun _ => rfl, fun _ => rfl, fun _ => rfl, fun _ => rfl, fun _ => rfl,
    fun _ => rfl, fun _ => rfl, fun _ => rfl, fun _ => rfl, fun _ => rfl, fun _ => rfl, nofun⟩

theorem prints_assignment {op : String} (h : op ∈ assignments) :
    Prints (fun _ => True) (ofText (" " ++ op ++ "= ")) (" " ++ op ++ "= ").toList
      [.mark (op ++ "=")] where
  spells := .text _
  scans rest us _ hs := by
    have htext : (" " ++ op ++ "= ").toList ++ rest =
        ' ' :: ((op ++ "=").toList ++ ' ' :: rest) := by simp
    rw [htext]
    exact .blank rfl (.token (scan_assignment op h rest) (.blank rfl hs))

theorem scan_point {c : Char} (h : startsWord c = true) (cs : List Char) :
    scan true ('.' :: c :: cs) = some (some (.mark "."), c :: cs) := by
  have hdigit : c.isDigit = false := by
    cases hd : c.isDigit with
    | false => rfl
    | true => exact h.symm.trans (inWord_digit hd).1
  rw [scan, if_neg (by decide), if_neg (by simp [hdigit])]
  rfl

/-- The name of a member, behind its point. -/
theorem prints_member {f : String} (h : isName f = true) :
    Prints (Follows true) (ofText ("." ++ f)) ("." ++ f).toList [.mark ".", .word f] where
  spells := .text _
  scans rest us hr hs := by
    have hword : Ends inWord rest := hr.mono fun c hc => by rw [joins, hc, Bool.true_or]
    have hname := Scans.token (scan_name h hword) hs
    have htext : ("." ++ f).toList ++ rest = '.' :: (f.toList ++ rest) := by simp
    rw [htext]
    unfold isName at h
    cases hf : f.toList with
    | nil => simp [hf] at h
    | cons c cs =>
      rw [hf] at h hname
      exact .token (scan_point (Bool.and_eq_true_iff.mp h).1 _) hname

/-- An operator that is followed by nothing that goes on with it. -/
theorem scan_before {op : String} (h : op ∈ operatorsBefore) {c : Char} (hc : c ≠ '=')
    (hminus : op = "-" → c ≠ '-') (hplus : op = "+" → c ≠ '+')
    (hword : Source.isWord op = true → c = ' ') (cs : List Char) :
    scan true (op.toList ++ c :: cs) = some (some (operator op), c :: cs) := by
  have hc' : ('=' == c) = false := by simpa using hc.symm
  simp only [operatorsBefore, List.mem_cons, List.not_mem_nil, or_false] at h
  rcases h with rfl | rfl | rfl | rfl | rfl | rfl | rfl | rfl | rfl
  · rw [hword rfl]
    rfl
  · rw [hword rfl]
    rfl
  · rw [hword rfl]
    rfl
  · rfl
  · rfl
  · have hplus' : ('+' == c) = false := by simpa using (hplus rfl).symm
    have hmark : mark? ('+' :: c :: cs) = some (.mark "+", c :: cs) := by
      simp [mark?, marks, List.find?, List.isPrefixOf_cons_cons, hplus', hc']
    exact congrArg (Option.map (Prod.map some id)) hmark
  · have hminus' : ('-' == c) = false := by simpa using (hminus rfl).symm
    have hmark : mark? ('-' :: c :: cs) = some (.mark "-", c :: cs) := by
      simp [mark?, marks, List.find?, List.isPrefixOf_cons_cons, hminus', hc']
    exact congrArg (Option.map (Prod.map some id)) hmark
  · rfl
  · have hmark : mark? ('!' :: c :: cs) = some (.mark "!", c :: cs) := by
      simp [mark?, marks, List.find?, List.isPrefixOf_cons_cons, hc']
    exact congrArg (Option.map (Prod.map some id)) hmark

theorem leads_before {op : String} (h : op ∈ operatorsBefore) (rest : List Char) :
    Leads (op.toList ++ rest) := by
  have hall : ∀ op ∈ operatorsBefore, op.toList ≠ [] ∧ op.toList.head? ≠ some '=' := by decide
  obtain ⟨hne, heq⟩ := hall op h
  cases hl : op.toList with
  | nil => exact absurd hl hne
  | cons c cs => exact ⟨c, cs ++ rest, rfl, fun hc => heq (by rw [hl, hc]; rfl)⟩

/-- An operator in front of an operand, which a space keeps apart where they would join. -/
theorem prints_before {op : String} (h : op ∈ operatorsBefore) (he : Shows tight l ts) :
    Shows tight
      (ofText op ++ (if Source.isWord op || Source.fuses op l then ofText " " else []) ++ l)
      (operator op :: ts) := by
  obtain ⟨cs, hl, c, cs', rfl, hc⟩ := he
  have hstarts (c' : Char) : l.startsWith c' = (c == c') := hl.spells.startsWith c'
  by_cases hspace : (Source.isWord op || Source.fuses op l) = true
  · rw [if_pos hspace]
    have hspells := ((Spells.text op).append (.text " ")).append hl.spells
    refine ⟨_, ⟨hspells, fun rest us hr hs => ?_⟩, ?_⟩
    · have hop := scan_before h (by decide) (fun _ => by decide) (fun _ => by decide) (fun _ => rfl)
        (c :: cs' ++ rest)
      rw [List.append_assoc, List.append_assoc]
      exact .token hop (.blank rfl (hl.scans rest us hr hs))
    · rw [List.append_assoc]
      exact leads_before h _
  · rw [if_neg hspace, List.append_nil]
    obtain ⟨hword, hfuses⟩ := Bool.or_eq_false_iff.mp (by simpa using hspace)
    have hminus : op = "-" → c ≠ '-' := by
      rintro rfl
      simpa [Source.fuses, hstarts] using hfuses
    have hplus : op = "+" → c ≠ '+' := by
      rintro rfl
      simpa [Source.fuses, hstarts] using hfuses
    have hop (rest : List Char) := scan_before h hc hminus hplus
      (fun hw => absurd hw (by simp [hword])) (cs' ++ rest)
    refine ⟨_, ⟨(Spells.text op).append hl.spells, fun rest us hr hs => ?_⟩, leads_before h _⟩
    rw [List.append_assoc]
    exact .token (hop rest) (hl.scans rest us hr hs)

end

end Resumable.Reading
