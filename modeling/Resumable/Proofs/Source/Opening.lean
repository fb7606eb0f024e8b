/-
  Resumable.Proofs.Source.Opening — how an expression statement begins.

  A statement that begins with `function` or with a brace is read as a declaration or as a block.
  The printer puts an expression statement in parentheses if it is a function or an object literal.
  It does not look further: the text of an expression begins with the text of the expression at its
  front, that of a chain of members with the text of its base, and the literal may stand there
  without parentheses of its own (`opensWithLiteral`).

  The induction follows the front.  It says of the characters of an expression, with anything behind
  them that does not join its last word, when they begin such a statement (`form_begins`).

  Main statement: `render_begins_statement`.
-/
import Resumable.Proofs.Code.Figures
import Resumable.Proofs.Sorts.Gaps
import Resumable.Proofs.Sorts.Rendering
import Resumable.Proofs.Source.Printing

namespace Resumable.Reading

open Source (Layout Style)
open Source.Layout (ofText)

/-! ## §1. The first token. -/

/-- A text has a first token, behind blanks and comments.  A slash there divides nothing. -/
inductive First : List Char → Token → Prop
  | token {cs rest : List Char} {t : Token} (h : scan false cs = some (some t, rest)) : First cs t
  | blank {cs rest : List Char} {t : Token} (h : scan false cs = some (none, rest))
      (others : First rest t) : First cs t

/-- A text is read as a declaration of a function or as a block, where a statement is read. -/
def BeginsStatement (cs : List Char) : Prop :=
  First cs (.word "function") ∨ First cs (.mark "\x7b")

variable {cs rest : List Char} {c : Char} {t : Token}

theorem First.eq {t' : Token} (h : First cs t') (ht : scan false cs = some (some t, rest)) :
    t' = t := by
  cases h with
  | token h' => exact Option.some.inj (Prod.ext_iff.mp (Option.some.inj (h'.symm.trans ht))).1
  | blank h' => cases h'.symm.trans ht

theorem beginsStatement_iff (ht : scan false cs = some (some t, rest)) :
    BeginsStatement cs ↔ t = .word "function" ∨ t = .mark "\x7b" := by
  constructor
  · exact Or.imp (fun h => (h.eq ht).symm) fun h => (h.eq ht).symm
  · rintro (rfl | rfl)
    · exact .inl (.token ht)
    · exact .inr (.token ht)

theorem beginsStatement_brace : BeginsStatement ('\x7b' :: cs) := .inr (.token rfl)

/-- A name begins a statement only if it is the word itself. -/
theorem beginsStatement_name {x : String} (hx : isName x = true) (hr : Ends inWord rest) :
    BeginsStatement (x.toList ++ rest) ↔ x = "function" := by
  rw [beginsStatement_iff (scan_name hx hr)]
  simp

/-- A token that begins neither a declaration nor a block. -/
def Harmless (t : Token) : Prop := t ≠ .word "function" ∧ t ≠ .mark "\x7b"

/-- A text whose scan, if there is one, takes such a token begins no statement. -/
theorem not_beginsStatement_of_scan
    (h : ∀ r, scan false cs = some r → ∃ t, r.1 = some t ∧ Harmless t) : ¬ BeginsStatement cs := by
  have hfirst {u : Token} (hu : First cs u) : Harmless u := by
    cases hu with
    | token hs =>
      obtain ⟨t, ht, hharmless⟩ := h _ hs
      cases ht
      exact hharmless
    | blank hs =>
      obtain ⟨t, ht, -⟩ := h _ hs
      cases ht
  rintro (hf | hb)
  · exact (hfirst hf).1 rfl
  · exact (hfirst hb).2 rfl

/-- What a scanner takes a token with. -/
theorem map_harmless {x : Option (Token × List Char)} (h : ∀ r, x = some r → Harmless r.1)
    {r : Option Token × List Char} (hr : x.map (Prod.map some id) = some r) :
    ∃ t, r.1 = some t ∧ Harmless t := by
  obtain ⟨q, hq, rfl⟩ := Option.map_eq_some_iff.mp hr
  exact ⟨q.1, rfl, h q hq⟩

theorem number?_harmless {r : Token × List Char} (h : number? cs = some r) : Harmless r.1 := by
  unfold number? at h
  dsimp only at h
  split at h
  · cases h
  · cases h
    exact ⟨nofun, nofun⟩

theorem string?_harmless {q : Char} {r : Token × List Char} (h : string? q cs = some r) :
    Harmless r.1 := by
  obtain ⟨s, -, ⟨⟩⟩ := Option.bind_eq_some_iff.mp h
  exact ⟨nofun, nofun⟩

theorem regexp?_harmless {r : Token × List Char} (h : regexp? cs = some r) : Harmless r.1 := by
  obtain ⟨s, -, ⟨⟩⟩ := Option.bind_eq_some_iff.mp h
  exact ⟨nofun, nofun⟩

/-- The only mark that begins with a brace is the brace. -/
theorem mark?_harmless (hc : c ≠ '\x7b') {r : Token × List Char} (h : mark? (c :: cs) = some r) :
    Harmless r.1 := by
  obtain ⟨m, hm, rfl⟩ := Option.map_eq_some_iff.mp h
  refine ⟨nofun, ?_⟩
  rintro ⟨⟩
  have hfront := List.find?_some hm
  simp [List.isPrefixOf_cons_cons] at hfront
  exact hc hfront.symm

/-- Whether a character begins a token that is neither a word nor a brace. -/
def beginsOther (c : Char) : Bool :=
  !startsWord c && !isBlank c && c != '/' && c != '\x7b'

theorem not_beginsStatement_other (h : beginsOther c = true) : ¬ BeginsStatement (c :: cs) := by
  simp only [beginsOther, Bool.and_eq_true, Bool.not_eq_true', bne_iff_ne] at h
  obtain ⟨⟨⟨hword, hblank⟩, hslash⟩, hbrace⟩ := h
  have hslash' : (c == '/') = false := by simpa using hslash
  refine not_beginsStatement_of_scan fun r hr => ?_
  simp only [scan, hword, hblank, hslash', Bool.false_and, Bool.false_eq_true, if_false] at hr
  split at hr
  · exact map_harmless (fun _ => number?_harmless) hr
  split at hr
  · exact map_harmless (fun _ => string?_harmless) hr
  · exact map_harmless (fun _ => mark?_harmless hbrace) hr

/-- A regular expression begins no statement; with a star or a slash in front it is a comment. -/
theorem not_beginsStatement_regexp (hslash : c ≠ '/') (hstar : c ≠ '*') :
    ¬ BeginsStatement ('/' :: c :: cs) := by
  refine not_beginsStatement_of_scan fun r hr => map_harmless (fun _ => regexp?_harmless) (r := r)
    (x := regexp? (c :: cs)) ?_
  rw [← hr, scan_slash]
  simp [hslash, hstar]

/-! ## §2. The front of an expression. -/

/-- Whether the text of an expression begins with a function or an object literal: it is one, or
    its first operand begins with one and needs no parentheses. -/
def opensWithLiteral : Node → Bool
  | .function _ _ _ | .object _ => true
  | .call c _ =>
    !Source.isFunction c && decide (Source.Precedence.call ≤ Source.Precedence.ofNode c) &&
      opensWithLiteral c
  | .binary op l _ =>
    decide (Source.Precedence.ofBinary op ≤ Source.Precedence.ofNode l) && opensWithLiteral l
  | .unary .after _ e | .assign _ e _ =>
    decide (Source.Precedence.after ≤ Source.Precedence.ofNode e) && opensWithLiteral e
  | .dot b _ | .sub b _ =>
    decide (Source.Precedence.call ≤ Source.Precedence.ofNode b) && opensWithLiteral b
  | .conditional t _ _ =>
    decide (Source.Precedence.or ≤ Source.Precedence.ofNode t) && opensWithLiteral t
  | .seq (e :: _) =>
    decide (Source.Precedence.assign ≤ Source.Precedence.ofNode e) && opensWithLiteral e
  | _ => false

/-- A text that is no other token in front of anything: a name, or what begins neither a word nor
    a brace. -/
def IsPlain (s : String) : Prop :=
  isName s = true ∧ s ≠ "function" ∨ ∃ c cs, s.toList = c :: cs ∧ beginsOther c = true

/-- The texts of a node are those of tokens of their kind.  Nothing is asked for but that they can
    be told from a declaration or a block and from what follows. -/
def Spelled : Node → Prop
  | .name x => isName x = true ∧ x ∉ reservedWords
  | .num x | .atom x => IsPlain x
  | .regexp p _ => ∃ c cs, p.toList = c :: cs ∧ c ≠ '/' ∧ c ≠ '*'
  | .unary .before op _ =>
    Source.isWord op = true ∨ ∃ c cs, op.toList = c :: cs ∧ beginsOther c = true
  | .unary .after op _ => Ends inWord op.toList
  | _ => True

theorem IsPlain.not_beginsStatement {s : String} (h : IsPlain s) (hr : Ends inWord rest) :
    ¬ BeginsStatement (s.toList ++ rest) := by
  rcases h with ⟨hname, hs⟩ | ⟨c, cs, hs, hc⟩
  · rwa [beginsStatement_name hname hr]
  · rw [hs]
    exact not_beginsStatement_other hc

/-! ## §3. Printed expressions. -/

/-- Whether a layout, with something behind it that does not join its last word, is read as a
    declaration or a block where a statement is read. -/
def Begins (b : Bool) (l : Layout) : Prop := ∀ (st : Style) (rest : List Char), Ends inWord rest →
  (BeginsStatement ((st.write l).toList ++ rest) ↔ b = true)

/-- A layout does not join a word in front of it. -/
def Separates (l : Layout) : Prop := ∀ (st : Style) (rest : List Char), Ends inWord rest →
  Ends inWord ((st.write l).toList ++ rest)

variable {b : Bool} {l l' : Layout} {s : String}

theorem Separates.text (hs : s.toList = c :: cs) (hc : inWord c = false) (l : Layout) :
    Separates (ofText s ++ l) := by
  intro st rest _
  rw [ofText, List.singleton_append, Style.write, Style.piece, String.toList_append, hs]
  rintro d ⟨⟩
  exact hc

theorem Separates.ends (h : Ends inWord s.toList) : Separates (ofText s) := by
  intro st rest hr
  have hwrite : (st.write (ofText s)).toList = s.toList := (Spells.text s).write st
  rw [hwrite]
  cases hs : s.toList with
  | nil => exact hr
  | cons c cs =>
    rintro d ⟨⟩
    exact h c (by rw [hs]; rfl)

theorem Begins.append (h : Begins b l) (h' : Separates l') : Begins b (l ++ l') := by
  intro st rest hr
  rw [write_append, String.toList_append, List.append_assoc]
  exact h st _ (h' st rest hr)

/-- What a text begins with decides, whatever is behind it. -/
theorem Begins.front (front : List Char) (hs : s.toList = front ++ cs)
    (h : ∀ cs, BeginsStatement (front ++ cs) ↔ b = true) (l : Layout) :
    Begins b (ofText s ++ l) := by
  intro st rest _
  rw [ofText, List.singleton_append, Style.write, Style.piece, String.toList_append, hs,
    List.append_assoc, List.append_assoc]
  exact h _

theorem Begins.other (hs : s.toList = c :: cs) (hc : beginsOther c = true) (l : Layout) :
    Begins false (ofText s ++ l) :=
  .front [c] hs
    (fun _ => iff_of_false (not_beginsStatement_other hc) Bool.false_ne_true) l

theorem Begins.brace (hs : s.toList = '\x7b' :: cs) (l : Layout) : Begins true (ofText s ++ l) :=
  .front ['\x7b'] hs (fun _ => iff_of_true beginsStatement_brace rfl) l

/-- The word that begins a declaration, with something behind it that ends it. -/
theorem Begins.function (hs : s.toList = "function".toList ++ c :: cs) (hc : inWord c = false)
    (l : Layout) : Begins true (ofText s ++ l) := by
  refine .front ("function".toList ++ [c]) (by rw [hs, List.append_assoc]; rfl)
    (fun cs => ?_) l
  rw [List.append_assoc, beginsStatement_name (by decide)]
  · simp
  · rintro d ⟨⟩
    exact hc

theorem Begins.regexp (hs : s.toList = '/' :: c :: cs) (hslash : c ≠ '/') (hstar : c ≠ '*')
    (l : Layout) : Begins false (ofText s ++ l) :=
  .front ['/', c] hs
    (fun _ => iff_of_false (not_beginsStatement_regexp hslash hstar) Bool.false_ne_true) l

theorem Begins.parens (l : Layout) : Begins false l.parens := by
  unfold Layout.parens
  rw [List.append_assoc]
  exact .other rfl rfl _

/-- An operand begins a statement if it is one that does, and stands without parentheses. -/
theorem asOperand_begins {least : Nat} {n : Node} {f : Except Failure Layout}
    (h : Source.asOperand least n f = .ok l)
    (hf : ∀ l, f = .ok l → n.isExpression = true → least ≤ Source.Precedence.ofNode n →
      Begins (opensWithLiteral n) l) :
    Begins (decide (least ≤ Source.Precedence.ofNode n) && opensWithLiteral n) l := by
  unfold Source.asOperand at h
  split at h
  · next he =>
    obtain ⟨l', hl', ⟨⟩⟩ := bind_eq_ok h
    by_cases hp : Source.Precedence.ofNode n < least
    · rw [if_pos hp, decide_eq_false (Nat.not_le_of_lt hp)]
      exact .parens l'
    · have hle : least ≤ Source.Precedence.ofNode n := Nat.le_of_not_lt hp
      rw [if_neg hp, decide_eq_true hle]
      exact hf l' hl' he hle
  · cases h

open Node (Throughout throughout_iff)

theorem IsPlain.begins (h : IsPlain s) : Begins false (ofText s) := by
  intro st rest hr
  have hwrite : (st.write (ofText s)).toList = s.toList := (Spells.text s).write st
  rw [hwrite]
  exact iff_of_false (h.not_beginsStatement hr) Bool.false_ne_true

/-- A function literal begins with its word: a blank or a parenthesis follows. -/
theorem functionHead_begins (name : String) (params : List String) (l : Layout) :
    Begins true (Source.functionHead name params ++ l) := by
  unfold Source.functionHead
  by_cases hname : name.isEmpty = true
  · rw [if_pos hname]
    have hs : ("function" ++ "" ++ "(" ++ ", ".intercalate params ++ ") ").toList =
        "function".toList ++ '(' :: (", ".intercalate params ++ ") ").toList := by
      simp
    exact .function hs rfl l
  · rw [if_neg hname]
    have hs : ("function" ++ (" " ++ name) ++ "(" ++ ", ".intercalate params ++ ") ").toList =
        "function".toList ++ ' ' :: (name ++ "(" ++ ", ".intercalate params ++ ") ").toList := by
      simp
    exact .function hs rfl l

/-- An operator in front of its operand, with a space between them if it is a word. -/
theorem operator_begins {op : String} (h : Source.isWord op = true ∨
    ∃ c cs, op.toList = c :: cs ∧ beginsOther c = true) {space : Bool}
    (hspace : Source.isWord op = true → space = true) (l : Layout) :
    Begins false (ofText op ++ (if space then ofText " " else []) ++ l) := by
  rw [List.append_assoc]
  rcases h with hword | ⟨c, cs, hop, hc⟩
  · rw [hspace hword, if_pos rfl]
    have hplain : IsPlain op := by
      simp only [Source.isWord, Bool.or_eq_true, beq_iff_eq] at hword
      rcases hword with (rfl | rfl) | rfl <;> exact .inl (by decide)
    exact hplain.begins.append (.text rfl rfl l)
  · exact .other hop hc _

/-- An expression begins a statement if its front is a function or an object literal. -/
theorem form_begins (n : Node) (depth : Nat) (asBody : Bool) (he : n.isExpression = true)
    (hp : Source.Precedence.assign ≤ Source.Precedence.ofNode n) (hs : Throughout Spelled n)
    (l : Layout) (h : Source.form depth asBody n = .ok l) : Begins (opensWithLiteral n) l := by
  obtain ⟨hroot, hparts⟩ := (throughout_iff (Node.isAbsent_of_isExpression he)).mp hs
  have hoperand {p : Position} {m : Node} {least : Nat} {l : Layout} (hm : (p, m) ∈ n.positions)
      (hleast : Source.Precedence.assign ≤ least)
      (hl : Source.asOperand least m (Source.form depth false m) = .ok l) :
      Begins (decide (least ≤ Source.Precedence.ofNode m) && opensWithLiteral m) l := by
    refine asOperand_begins hl fun l hl he hle => ?_
    have := Node.sizeOf_lt_of_mem_positions hm (Node.isAbsent_of_isExpression he)
    exact form_begins m depth false he (Nat.le_trans hleast hle) (hparts _ hm) l hl
  cases n with
  | name x =>
    obtain ⟨hx, hfree⟩ := hroot
    rw [Source.form] at h
    cases h
    exact IsPlain.begins (.inl ⟨hx, fun hf => hfree (by rw [hf]; decide)⟩)
  | num x | atom x =>
    rw [Source.form] at h
    cases h
    exact IsPlain.begins hroot
  | string s =>
    rw [Source.form] at h
    cases h
    rw [← List.append_nil (ofText _)]
    have hquote : (Source.quote s).toList =
        '"' :: (s.toList.flatMap Source.literalChar ++ ['"']) := by
      simp [Source.quote]
    exact .other hquote rfl []
  | regexp p fl =>
    rw [Source.form] at h
    cases h
    obtain ⟨c, cs, hpattern, hslash, hstar⟩ := hroot
    rw [← List.append_nil (ofText _)]
    have htext : ("/" ++ p ++ "/" ++ fl).toList = '/' :: c :: (cs ++ '/' :: fl.toList) := by
      simp [hpattern]
    exact .regexp htext hslash hstar []
  | array es =>
    rw [Source.form] at h
    obtain ⟨items, -, ⟨⟩⟩ := bind_eq_ok h
    rw [List.append_assoc]
    exact .other rfl rfl _
  | object ps =>
    rw [Source.form] at h
    obtain ⟨items, -, ⟨⟩⟩ := bind_eq_ok h
    rw [← List.append_nil (ite _ _ _)]
    split
    · exact .brace rfl []
    · rw [List.append_assoc, List.append_assoc]
      exact .brace rfl _
  | function name params body =>
    rw [Source.form] at h
    obtain ⟨items, -, ⟨⟩⟩ := bind_eq_ok h
    exact functionHead_begins name params _
  | call c as =>
    rw [Source.form] at h
    obtain ⟨callee, hc, h⟩ := bind_eq_ok h
    obtain ⟨args, -, ⟨⟩⟩ := bind_eq_ok h
    have hcallee := hoperand List.mem_cons_self (by decide) hc
    have hargs : Separates (Layout.parens (Layout.joined ", " args)) := by
      unfold Layout.parens
      rw [List.append_assoc]
      exact .text rfl rfl _
    refine Begins.append ?_ hargs
    rw [opensWithLiteral]
    cases hfunction : Source.isFunction c with
    | true => exact .parens callee
    | false => exact hcallee
  | new c as =>
    rw [Source.form] at h
    obtain ⟨callee, -, h⟩ := bind_eq_ok h
    obtain ⟨args, -, ⟨⟩⟩ := bind_eq_ok h
    rw [List.append_assoc]
    refine .front "new ".toList (List.append_nil _).symm (fun cs => ?_) _
    have hplain : IsPlain "new" := .inl (by decide)
    have hblank : Ends inWord (' ' :: cs) := by
      rintro d ⟨⟩
      rfl
    exact iff_of_false (hplain.not_beginsStatement hblank) Bool.false_ne_true
  | binary op x y =>
    rw [Source.form] at h
    obtain ⟨left, hleft, h⟩ := bind_eq_ok h
    obtain ⟨right, -, ⟨⟩⟩ := bind_eq_ok h
    have hfront := hoperand List.mem_cons_self hp hleft
    rw [List.append_assoc]
    have hop : (" " ++ op ++ " ").toList = ' ' :: (op.toList ++ [' ']) := by simp
    exact hfront.append (.text hop rfl _)
  | unary side op e =>
    cases side with
    | before =>
      rw [Source.form] at h
      obtain ⟨operand, -, ⟨⟩⟩ := bind_eq_ok h
      exact operator_begins hroot (fun hword => by rw [hword, Bool.true_or]) operand
    | after =>
      rw [Source.form] at h
      obtain ⟨operand, hop, ⟨⟩⟩ := bind_eq_ok h
      have hfront := hoperand List.mem_cons_self (by decide) hop
      exact hfront.append (.ends hroot)
  | assign op t v =>
    rw [Source.form] at h
    obtain ⟨target, htarget, h⟩ := bind_eq_ok h
    obtain ⟨value, -, ⟨⟩⟩ := bind_eq_ok h
    have hfront := hoperand List.mem_cons_self (by decide) htarget
    rw [List.append_assoc]
    have hop : (" " ++ op ++ "= ").toList = ' ' :: (op.toList ++ ['=', ' ']) := by simp
    exact hfront.append (.text hop rfl _)
  | dot e f =>
    rw [Source.form] at h
    obtain ⟨base, hbase, ⟨⟩⟩ := bind_eq_ok h
    have hfront := hoperand List.mem_cons_self (by decide) hbase
    have hfield : ("." ++ f).toList = '.' :: f.toList := by simp
    refine Begins.append ?_ (.text hfield rfl [])
    cases hnumber : Source.isNumber e with
    | true =>
      cases e <;> cases hnumber
      exact .parens base
    | false => exact hfront
  | sub e i =>
    rw [Source.form] at h
    obtain ⟨base, hbase, h⟩ := bind_eq_ok h
    obtain ⟨index, -, ⟨⟩⟩ := bind_eq_ok h
    have hfront := hoperand List.mem_cons_self (by decide) hbase
    rw [List.append_assoc, List.append_assoc]
    exact hfront.append (.text rfl rfl _)
  | conditional t y e =>
    rw [Source.form] at h
    obtain ⟨test, htest, h⟩ := bind_eq_ok h
    obtain ⟨yes, -, h⟩ := bind_eq_ok h
    obtain ⟨no, -, ⟨⟩⟩ := bind_eq_ok h
    have hfront := hoperand List.mem_cons_self (by decide) htest
    rw [List.append_assoc, List.append_assoc, List.append_assoc]
    exact hfront.append (.text rfl rfl _)
  | seq es => exact absurd hp (Nat.not_le_of_lt (Nat.lt_succ_self 1))
  | _ => cases he
termination_by sizeOf n

/-! ## §4. Expression statements. -/

theorem separates_semicolon : Separates (ofText ";") :=
  .ends (by rintro d ⟨⟩; rfl)

/-- A sequence begins with its first member; without members the semicolon comes first. -/
theorem operands_begins {es : List Node} {depth : Nat} {items : List Layout}
    (hs : ∀ e ∈ es, Throughout Spelled e) (h : Source.operands depth es = .ok items) :
    Begins (opensWithLiteral (.seq es)) (Layout.joined ", " items ++ ofText ";") := by
  cases es with
  | nil =>
    rw [Source.operands] at h
    cases h
    exact .other rfl rfl []
  | cons e es =>
    rw [Source.operands] at h
    obtain ⟨first, hfirst, h⟩ := bind_eq_ok h
    obtain ⟨others, -, ⟨⟩⟩ := bind_eq_ok h
    have hfront := asOperand_begins hfirst fun l hl he hle =>
      form_begins e depth false he hle (hs e List.mem_cons_self) l hl
    cases others with
    | nil => exact hfront.append separates_semicolon
    | cons second others =>
      rw [Layout.joined, List.append_assoc, List.append_assoc]
      · exact hfront.append (.text rfl rfl _)
      · exact nofun

theorem assign_le_ofBinary (op : String) :
    Source.Precedence.assign ≤ Source.Precedence.ofBinary op := by
  unfold Source.Precedence.ofBinary
  split <;> decide

/-- Nothing but a sequence binds more loosely than an assignment. -/
theorem exists_seq {e : Node} (h : Source.Precedence.ofNode e < Source.Precedence.assign) :
    ∃ es, e = .seq es := by
  unfold Source.Precedence.ofNode at h
  split at h
  · exact ⟨_, rfl⟩
  · cases Nat.lt_irrefl _ h
  · cases Nat.not_lt_of_le (by decide) h
  · next op _ _ => cases Nat.not_lt_of_le (assign_le_ofBinary op) h
  · cases Nat.not_lt_of_le (by decide) h
  · cases Nat.not_lt_of_le (by decide) h
  · cases Nat.not_lt_of_le (by decide) h
  · split at h <;> cases Nat.not_lt_of_le (by decide) h
  · cases Nat.not_lt_of_le (by decide) h
  · cases Nat.not_lt_of_le (by decide) h
  · cases Nat.not_lt_of_le (by decide) h

theorem statement_begins {e : Node} {depth : Nat} {l : Layout} (hs : Throughout Spelled e)
    (h : Source.asOperand Source.Precedence.lowest e (Source.form depth false e) = .ok l) :
    Begins (opensWithLiteral e) (l ++ ofText ";") := by
  by_cases hp : Source.Precedence.assign ≤ Source.Precedence.ofNode e
  · have hfront := asOperand_begins h fun l hl he _ => form_begins e depth false he hp hs l hl
    rw [decide_eq_true (show Source.Precedence.lowest ≤ _ from Nat.zero_le _), Bool.true_and]
      at hfront
    exact hfront.append separates_semicolon
  · obtain ⟨es, rfl⟩ := exists_seq (Nat.lt_of_not_le hp)
    have hform : Source.form depth false (.seq es) = .ok l := by
      unfold Source.asOperand at h
      obtain ⟨l', hl', ⟨⟩⟩ := bind_eq_ok h
      exact hl'
    rw [Source.form] at hform
    obtain ⟨items, hitems, ⟨⟩⟩ := bind_eq_ok hform
    refine operands_begins (fun e he => ?_) hitems
    exact ((throughout_iff rfl).mp hs).2 (.operand, e) (List.mem_map_of_mem he)

/-- A statement on its own is laid out as it reads. -/
theorem layout_stat (e : Node) : Source.layout (.stat e) = Source.form 0 false (.stat e) := by
  show (do return Layout.lines 0 (← Source.statements 0 [.stat e])) = _
  have hstat : Source.asStatement (.stat e) (Source.form 0 false (.stat e)) =
      Source.form 0 false (.stat e) := rfl
  rw [Source.statements, Source.statements]
  · rw [hstat]
    cases Source.form 0 false (.stat e) <;> rfl
  · intro habsent
    cases habsent
  · intro nodes hsplice
    cases hsplice

/-- An expression statement is read as a declaration or as a block if, and only if, it begins with
    a function or an object literal inside a larger expression.  A statement that is such a literal
    itself is put in parentheses, and so is any operand that binds too loosely. -/
theorem render_begins_statement (st : Style) (e : Node) (text : String)
    (hs : Throughout Spelled e) (h : Source.render st (.stat e) = .ok text) :
    BeginsStatement text.toList ↔
      opensWithLiteral e = true ∧ Source.startsStatement e = false := by
  obtain ⟨layout, hlayout, ⟨⟩⟩ := bind_eq_ok h
  have hform : ∃ l, Source.asOperand Source.Precedence.lowest e (Source.form 0 false e) = .ok l ∧
      layout = (if Source.startsStatement e then l.parens else l) ++ ofText ";" := by
    rw [layout_stat, Source.form] at hlayout
    obtain ⟨l, hl, ⟨⟩⟩ := bind_eq_ok hlayout
    exact ⟨l, hl, rfl⟩
  obtain ⟨l, hl, rfl⟩ := hform
  have hbegins : Begins (opensWithLiteral e && !Source.startsStatement e)
      ((if Source.startsStatement e then l.parens else l) ++ ofText ";") := by
    cases hstarts : Source.startsStatement e with
    | true =>
      rw [Bool.not_true, Bool.and_false]
      exact (Begins.parens l).append separates_semicolon
    | false =>
      rw [Bool.not_false, Bool.and_true]
      exact statement_begins hs hl
  have htext := hbegins st [] nofun
  rwa [List.append_nil, Bool.and_eq_true, Bool.not_eq_true'] at htext

theorem spelled_leaf {n : Node} (hn : n.isAbsent = false) (h : Spelled n) (hp : n.positions = []) :
    Throughout Spelled n :=
  (throughout_iff hn).mpr ⟨h, by rw [hp]; exact List.forall_mem_nil _⟩

theorem spelled_one {n m : Node} {p : Position} (hn : n.isAbsent = false) (h : Spelled n)
    (hp : n.positions = [(p, m)]) (hm : Throughout Spelled m) : Throughout Spelled n :=
  (throughout_iff hn).mpr ⟨h, by rw [hp]; exact List.forall_mem_singleton.mpr hm⟩

/-- A function literal that is called right away is in parentheses, as a callee. -/
theorem render_begins_statement_of_call :
    let e : Node := .call (.function "" [] []) []
    ∃ text, Source.render {} (.stat e) = .ok text ∧ Throughout Spelled e ∧
      (BeginsStatement text.toList ↔
        opensWithLiteral e = true ∧ Source.startsStatement e = false) ∧
      ¬ BeginsStatement text.toList := by
  intro e
  obtain ⟨text, htext⟩ : ∃ text, Source.render {} (.stat e) = .ok text :=
    exists_of_isOk (by decide +kernel)
  have hspelled : Throughout Spelled e := spelled_one rfl trivial rfl (spelled_leaf rfl trivial rfl)
  have hiff := render_begins_statement {} e text hspelled htext
  exact ⟨text, htext, hspelled, hiff, fun h => absurd (hiff.mp h) (by decide)⟩

/-- So is not one whose method is called, nor an object literal whose member is read:
    `function() {}.call();` and `{}.x;`. -/
theorem render_leaves_literal_bare :
    let called : Node := .call (.dot (.function "" [] []) "call") []
    let member : Node := .dot (.object []) "x"
    (Throughout Spelled called ∧
      Source.render {} (.stat called) = .ok "function() \x7b\x7d.call();" ∧
      First "function() \x7b\x7d.call();".toList (.word "function")) ∧
    Throughout Spelled member ∧ Source.render {} (.stat member) = .ok "\x7b\x7d.x;" ∧
      First "\x7b\x7d.x;".toList (.mark "\x7b") := by
  intro called member
  have hfunction : Throughout Spelled (.function "" [] []) := spelled_leaf rfl trivial rfl
  have hobject : Throughout Spelled (.object []) := spelled_leaf rfl trivial rfl
  refine ⟨⟨spelled_one rfl trivial rfl (spelled_one rfl trivial rfl hfunction), rfl, ?_⟩,
    spelled_one rfl trivial rfl hobject, rfl, ?_⟩
  · exact .token rfl
  · exact .token rfl

end Resumable.Reading
