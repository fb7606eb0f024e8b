/-
  Resumable.Proofs.Source.Spelling — the tokens of an expression.

  `spell` gives the tokens of an expression from its operands, each in the parentheses that the
  printer puts it in.  What they are read as is another matter; here it is enough that the text of
  the expression is scanned as these tokens, one form at a time.

  `Legible` is the fragment: every expression without functions, object literals and regular
  expressions, whose names, numbers and operators are such.

  Main statement: `Legible.scanned`.
-/
import Resumable.Proofs.Source.Printing

namespace Resumable.Reading

open Source (Layout)
open Source.Layout (ofText)

/-! ## §1. Expressions and their tokens. -/

/-- What can be assigned to. -/
@[simp]
def isPlace : Node → Bool
  | .name _ | .dot _ _ | .sub _ _ => true
  | _ => false

/-- An expression without functions, objects and regular expressions, whose names and numbers are
    such. -/
inductive Legible : Node → Prop
  | name {x : String} (h : isName x = true) (hfree : x ∉ reservedWords) : Legible (.name x)
  | num {x : String} (h : isInteger x = true) : Legible (.num x)
  | string (s : String) : Legible (.string s)
  | atom {w : String} (h : w ∈ literalWords) : Legible (.atom w)
  | array {es : List Node} (h : ∀ e ∈ es, Legible e) : Legible (.array es)
  | call {c : Node} {args : List Node} (hc : Legible c) (hargs : ∀ e ∈ args, Legible e) :
      Legible (.call c args)
  | new {c : Node} {args : List Node} (hc : Legible c) (hargs : ∀ e ∈ args, Legible e) :
      Legible (.new c args)
  | dot {b : Node} {f : String} (hb : Legible b) (hf : isName f = true) : Legible (.dot b f)
  | sub {b i : Node} (hb : Legible b) (hi : Legible i) : Legible (.sub b i)
  | binary {op : String} {l r : Node} (hop : op ∈ tiers.flatten) (hl : Legible l)
      (hr : Legible r) : Legible (.binary op l r)
  /-- An increment or a decrement needs something to assign to. -/
  | before {op : String} {e : Node} (hop : op ∈ operatorsBefore)
      (hplace : op ∈ operatorsAfter → isPlace e = true) (he : Legible e) :
      Legible (.unary .before op e)
  | after {op : String} {e : Node} (hop : op ∈ operatorsAfter) (hplace : isPlace e = true)
      (he : Legible e) : Legible (.unary .after op e)
  | assign {op : String} {t v : Node} (hop : op ∈ assignments) (hplace : isPlace t = true)
      (ht : Legible t) (hv : Legible v) : Legible (.assign op t v)
  | conditional {t y n : Node} (ht : Legible t) (hy : Legible y) (hn : Legible n) :
      Legible (.conditional t y n)
  | seq {es : List Node} (hlength : 2 ≤ es.length) (h : ∀ e ∈ es, Legible e) :
      Legible (.seq es)

theorem Legible.isFunction {e : Node} (h : Legible e) : Source.isFunction e = false := by
  cases h <;> rfl

open Source.Precedence (lowest assign or call member before after ofBinary) in
mutual

/-- The tokens of an expression. -/
@[simp]
def spell : Node → List Token
  | .name x => [.word x]
  | .num x => [.num x]
  | .string s => [.string s]
  | .atom w => [.word w]
  | .array es => .mark "[" :: (spellAll es ++ [.mark "]"])
  | .call c as => operandTokens call c (spell c) ++ grouped (spellAll as)
  | .new c as => .word "new" :: (operandTokens member c (spell c) ++ grouped (spellAll as))
  | .dot b f =>
    (if Source.isNumber b then grouped (spell b) else operandTokens call b (spell b)) ++
      [.mark ".", .word f]
  | .sub b i =>
    operandTokens call b (spell b) ++ [.mark "["] ++ operandTokens lowest i (spell i) ++ [.mark "]"]
  | .binary op l r =>
    operandTokens (ofBinary op) l (spell l) ++ [operator op] ++
      operandTokens (ofBinary op + 1) r (spell r)
  | .unary .before op e => operator op :: operandTokens before e (spell e)
  | .unary .after op e => operandTokens after e (spell e) ++ [.mark op]
  | .assign op t v =>
    operandTokens after t (spell t) ++ [.mark (op ++ "=")] ++ operandTokens assign v (spell v)
  | .conditional t y n =>
    operandTokens or t (spell t) ++ [.mark "?"] ++ operandTokens assign y (spell y) ++
      [.mark ":"] ++ operandTokens assign n (spell n)
  | .seq es => spellAll es
  | _ => []

/-- The tokens of expressions between commas. -/
@[simp]
def spellAll : List Node → List Token
  | [] => []
  | e :: es =>
    if es.isEmpty then operandTokens assign e (spell e)
    else operandTokens assign e (spell e) ++ [.mark ","] ++ spellAll es

end

/-- An expression has a layout, which is scanned as its tokens. -/
structure Scanned (depth : Nat) (e : Node) : Prop where
  isExpression : e.isExpression = true
  printed : ∃ l, Source.form depth false e = .ok l ∧ Shows (isTight e) l (spell e)

/-! ## §2. Operands. -/

section

variable {depth : Nat} {e : Node} {es : List Node}

theorem Scanned.operand (h : Scanned depth e) (least : Nat) :
    ∃ l, Source.asOperand least e (Source.form depth false e) = .ok l ∧
      Shows (decide (16 ≤ least) && !Source.isNumber e) l (operandTokens least e (spell e)) := by
  obtain ⟨l, hl, hshows⟩ := h.printed
  rw [hl]
  exact hshows.operand least h.isExpression

/-- An operand whose place does not matter to what follows it. -/
theorem Scanned.loose (h : Scanned depth e) (least : Nat) :
    ∃ l, Source.asOperand least e (Source.form depth false e) = .ok l ∧
      Shows false l (operandTokens least e (spell e)) := by
  obtain ⟨l, hl, hshows⟩ := h.operand least
  exact ⟨l, hl, hshows.weaken nofun⟩

/-- The base of a member access by name; a number is put in parentheses, where no point joins it. -/
theorem Scanned.base {b : Node} (hb : Scanned depth b) :
    ∃ l, Source.asOperand Source.Precedence.call b (Source.form depth false b) = .ok l ∧
      Shows true (if Source.isNumber b then l.parens else l)
        (if Source.isNumber b then grouped (spell b)
          else operandTokens Source.Precedence.call b (spell b)) := by
  obtain ⟨l, hl, hshows⟩ := hb.operand Source.Precedence.call
  refine ⟨l, hl, ?_⟩
  cases hnum : Source.isNumber b with
  | true =>
    have hbare : operandTokens Source.Precedence.call b (spell b) = spell b := by
      cases b <;> cases hnum
      rfl
    rw [hbare] at hshows
    exact hshows.parens true
  | false => exact hshows.weaken fun _ => by rw [hnum]; rfl

/-- What can be assigned to stands as it is. -/
theorem Scanned.place (h : Scanned depth e) (hplace : isPlace e = true) :
    ∃ l, Source.asOperand Source.Precedence.after e (Source.form depth false e) = .ok l ∧
      Shows true l (operandTokens Source.Precedence.after e (spell e)) := by
  obtain ⟨he, l, hl, hshows⟩ := h
  have htight : isTight e = true ∧ ¬ Source.Precedence.ofNode e < Source.Precedence.after := by
    cases e with
    | name _ | dot _ _ | sub _ _ => exact ⟨rfl, of_decide_eq_false rfl⟩
    | _ => cases hplace
  rw [htight.1] at hshows
  refine ⟨l, ?_, by rw [operandTokens, if_neg htight.2]; exact hshows⟩
  rw [Source.asOperand, if_pos he, hl]
  exact congrArg Except.ok (if_neg htight.2)

/-- The members of an expression list between commas. -/
theorem operands_scanned (h : ∀ e ∈ es, Scanned depth e) :
    ∃ ls, Source.operands depth es = .ok ls ∧ ls.length = es.length ∧
      ∃ cs, Prints (Follows false) (Layout.joined ", " ls) cs (spellAll es) ∧
        (es ≠ [] → Leads cs) := by
  induction es with
  | nil => exact ⟨[], rfl, rfl, [], ⟨.nil, fun _ _ _ hs => hs⟩, fun h => absurd rfl h⟩
  | cons e es ih =>
    obtain ⟨he, hes⟩ := List.forall_mem_cons.mp h
    obtain ⟨l, hl, cs, hprints, hleads⟩ := he.loose Source.Precedence.assign
    obtain ⟨ls, hls, hlength, cs', hprints', -⟩ := ih hes
    have hform : Source.operands depth (e :: es) = .ok (l :: ls) := by
      show (Source.asOperand Source.Precedence.assign e (Source.form depth false e) >>=
        fun _ => Source.operands depth es >>= _) = _
      rw [hl, hls]
      rfl
    refine ⟨l :: ls, hform, by simp [hlength], ?_⟩
    rw [spellAll]
    cases es with
    | nil =>
      obtain rfl : ls = [] := List.eq_nil_of_length_eq_zero hlength
      rw [if_pos List.isEmpty_nil]
      exact ⟨cs, hprints, fun _ => hleads⟩
    | cons e' es =>
      obtain ⟨l', ls', rfl⟩ : ∃ l' ls', ls = l' :: ls' := by
        cases ls with
        | nil => cases hlength
        | cons l' ls' => exact ⟨l', ls', rfl⟩
      have hcomma := hprints.append (prints_comma fun _ => True)
        fun rest _ => follows_char false rfl (' ' :: rest)
      exact ⟨_, hcomma.append hprints' fun _ _ => trivial, fun _ => (hleads.append _).append _⟩

/-- The arguments of a call, in their parentheses. -/
theorem arguments_scanned (h : ∀ e ∈ es, Scanned depth e) :
    ∃ ls, Source.operands depth es = .ok ls ∧ ∃ cs,
      Prints (Follows true) (Layout.joined ", " ls).parens ('(' :: cs) (grouped (spellAll es)) := by
  obtain ⟨ls, hls, -, cs, hargs, -⟩ := operands_scanned h
  have hopen : Prints (fun _ => True) (ofText "(") "(".toList [.mark "("] :=
    prints_mark _ fun _ => rfl
  have hclose : Prints (Follows true) (ofText ")") ")".toList [.mark ")"] :=
    prints_mark _ fun _ => rfl
  exact ⟨ls, hls, _, (hopen.append hargs fun _ _ => trivial).append hclose
    fun rest _ => follows_char false rfl rest⟩

/-! ## §3. One form at a time. -/

theorem scanned_token {n : Node} {text : String} {t : Token} (he : n.isExpression = true)
    (hform : Source.form depth false n = .ok (ofText text)) (hspell : spell n = [t])
    (hscan : ∀ rest, Follows (isTight n) rest →
      scan true (text.toList ++ rest) = some (some t, rest))
    (hleads : Leads text.toList) : Scanned depth n :=
  ⟨he, _, hform, _, hspell ▸ .text hscan, hleads⟩

theorem leads_name {s : String} (h : isName s = true) : Leads s.toList := by
  unfold isName at h
  cases hs : s.toList with
  | nil => simp [hs] at h
  | cons c cs =>
    rw [hs] at h
    refine ⟨c, cs, rfl, ?_⟩
    rintro rfl
    cases (Bool.and_eq_true_iff.mp h).1

theorem leads_integer {s : String} (h : isInteger s = true) : Leads s.toList := by
  unfold isInteger at h
  cases hs : s.toList with
  | nil => simp [hs] at h
  | cons c cs =>
    refine ⟨c, cs, rfl, ?_⟩
    rintro rfl
    simp [hs] at h

theorem scanned_word {n : Node} {w : String} (he : n.isExpression = true)
    (hform : Source.form depth false n = .ok (ofText w)) (hspell : spell n = [.word w])
    (hw : isName w = true) : Scanned depth n :=
  scanned_token he hform hspell (fun _ hr => scan_name hw (hr.mono fun c hc => by
    rw [joins, hc, Bool.true_or])) (leads_name hw)

theorem scanned_array (h : ∀ e ∈ es, Scanned depth e) : Scanned depth (.array es) := by
  obtain ⟨ls, hls, -, cs, hprints, -⟩ := operands_scanned h
  have hopen : Prints (fun _ => True) (ofText "[") "[".toList [.mark "["] :=
    prints_mark _ fun _ => rfl
  have hclose : Prints (Follows true) (ofText "]") "]".toList [.mark "]"] :=
    prints_mark _ fun _ => rfl
  have hform : Source.form depth false (.array es) =
      .ok (ofText "[" ++ Layout.joined ", " ls ++ ofText "]") := by
    show (Source.operands depth es >>= _) = _
    rw [hls]
    rfl
  exact ⟨rfl, _, hform, _, (hopen.append hprints fun _ _ => trivial).append hclose
    fun rest _ => follows_char false rfl rest, ⟨'[', _, rfl, by decide⟩⟩

theorem scanned_call {c : Node} (hc : Scanned depth c) (hfun : Source.isFunction c = false)
    (h : ∀ e ∈ es, Scanned depth e) : Scanned depth (.call c es) := by
  obtain ⟨lc, hlc, cs, hcallee, hleads⟩ := hc.operand Source.Precedence.call
  obtain ⟨ls, hls, cs', hargs⟩ := arguments_scanned h
  have hform : Source.form depth false (.call c es) =
      .ok (lc ++ (Layout.joined ", " ls).parens) := by
    show (Source.asOperand Source.Precedence.call c (Source.form depth false c) >>=
      fun _ => Source.operands depth es >>= _) = _
    rw [hlc, hls, hfun]
    rfl
  exact ⟨rfl, _, hform, _, hcallee.append hargs fun rest _ => follows_char _ rfl _, hleads.append _⟩

/-- The word in front of a constructor, with a space behind it. -/
theorem prints_new (ok : List Char → Prop) :
    Prints ok (ofText "new ") "new ".toList [.word "new"] :=
  ⟨.text _, fun _ _ _ hs => .token rfl (.blank rfl hs)⟩

theorem isTight_new (c : Node) (as : List Node) : isTight (.new c as) = true := by
  rw [isTight, Source.Precedence.ofNode]
  split <;> rfl

theorem scanned_new {c : Node} (hc : Scanned depth c) (h : ∀ e ∈ es, Scanned depth e) :
    Scanned depth (.new c es) := by
  obtain ⟨lc, hlc, cs, hcallee, -⟩ := hc.operand Source.Precedence.member
  obtain ⟨ls, hls, cs', hargs⟩ := arguments_scanned h
  have hform : Source.form depth false (.new c es) =
      .ok (ofText "new " ++ lc ++ (Layout.joined ", " ls).parens) := by
    show (Source.asOperand Source.Precedence.member c (Source.form depth false c) >>=
      fun _ => Source.operands depth es >>= _) = _
    rw [hlc, hls]
    rfl
  have hall := ((prints_new fun _ => True).append hcallee fun _ _ => trivial).append hargs
    fun rest _ => follows_char _ rfl _
  rw [← isTight_new c es] at hall
  exact ⟨rfl, _, hform, _, hall, ⟨'n', _, rfl, by decide⟩⟩

theorem scanned_dot {b : Node} {f : String} (hb : Scanned depth b) (hf : isName f = true) :
    Scanned depth (.dot b f) := by
  obtain ⟨l, hl, cs, hbase, hleads⟩ := hb.base
  have hpoint (rest : List Char) : Follows true (("." ++ f).toList ++ rest) := by
    rw [String.toList_append, List.append_assoc]
    rintro c ⟨⟩
    rfl
  have hform : Source.form depth false (.dot b f) =
      .ok ((if Source.isNumber b then l.parens else l) ++ ofText ("." ++ f)) := by
    show (Source.asOperand Source.Precedence.call b (Source.form depth false b) >>= _) = _
    rw [hl]
    rfl
  exact ⟨rfl, _, hform, _, hbase.append (prints_member hf) fun rest _ => hpoint rest,
    hleads.append _⟩

theorem scanned_sub {b i : Node} (hb : Scanned depth b) (hi : Scanned depth i) :
    Scanned depth (.sub b i) := by
  obtain ⟨lb, hlb, cs, hbase, hleads⟩ := hb.operand Source.Precedence.call
  obtain ⟨li, hli, cs', hindex, -⟩ := hi.loose Source.Precedence.lowest
  have hopen : Prints (fun _ => True) (ofText "[") "[".toList [.mark "["] :=
    prints_mark _ fun _ => rfl
  have hclose : Prints (Follows true) (ofText "]") "]".toList [.mark "]"] :=
    prints_mark _ fun _ => rfl
  have hform : Source.form depth false (.sub b i) =
      .ok (lb ++ ofText "[" ++ li ++ ofText "]") := by
    show (Source.asOperand Source.Precedence.call b (Source.form depth false b) >>= fun _ =>
      Source.asOperand Source.Precedence.lowest i (Source.form depth false i) >>= _) = _
    rw [hlb, hli]
    rfl
  have hall := ((hbase.append hopen fun rest _ => follows_char _ rfl rest).append hindex fun _ _ =>
      trivial).append hclose fun rest _ => follows_char false rfl rest
  exact ⟨rfl, _, hform, _, hall, ((hleads.append _).append _).append _⟩

/-- The level of an operator is the one of its tier. -/
theorem ofBinary_tier : ∀ k < 10, ∀ op ∈ tiers.getD k [],
    Source.Precedence.ofBinary op = 4 + k := by decide

theorem exists_tier {op : String} (hop : op ∈ tiers.flatten) : ∃ k, op ∈ tiers.getD k [] := by
  obtain ⟨ops, hops, hop⟩ := List.mem_flatten.mp hop
  obtain ⟨k, hk, rfl⟩ := List.getElem_of_mem hops
  exact ⟨k, by rwa [List.getD_eq_getElem?_getD, List.getElem?_eq_getElem hk]⟩

theorem scanned_binary {op : String} {l r : Node} (hop : op ∈ tiers.flatten)
    (hl : Scanned depth l) (hr : Scanned depth r) : Scanned depth (.binary op l r) := by
  obtain ⟨k, hop⟩ := exists_tier hop
  have hk := tier_lt hop
  have hlevel : Source.Precedence.ofBinary op = 4 + k := ofBinary_tier k hk op hop
  obtain ⟨ll, hll, cs, hleft, hleads⟩ := hl.loose (Source.Precedence.ofBinary op)
  obtain ⟨lr, hlr, cs', hright, -⟩ := hr.loose (Source.Precedence.ofBinary op + 1)
  have hlow : isTight (.binary op l r) = false := by
    have hlt : ¬ 16 ≤ Source.Precedence.ofBinary op := by omega
    simp [isTight, Source.Precedence.ofNode, hlt]
  have hform : Source.form depth false (.binary op l r) =
      .ok (ll ++ ofText (" " ++ op ++ " ") ++ lr) := by
    show (Source.asOperand (Source.Precedence.ofBinary op) l (Source.form depth false l) >>=
      fun _ => Source.asOperand (Source.Precedence.ofBinary op + 1) r
        (Source.form depth false r) >>= _) = _
    rw [hll, hlr]
    rfl
  have hoperator := hleft.append (prints_operator hop) fun rest _ => by
    rw [String.toList_append, String.toList_append, List.append_assoc, List.append_assoc]
    exact follows_char false rfl _
  have hall := hoperator.append hright fun _ _ => trivial
  rw [← hlow] at hall
  exact ⟨rfl, _, hform, _, hall, (hleads.append _).append _⟩

theorem scanned_before {op : String} (hop : op ∈ operatorsBefore) (he : Scanned depth e) :
    Scanned depth (.unary .before op e) := by
  obtain ⟨l, hl, hshows⟩ := he.loose Source.Precedence.before
  have hform : Source.form depth false (.unary .before op e) =
      .ok (ofText op ++
        (if Source.isWord op || Source.fuses op l then ofText " " else []) ++ l) := by
    show (Source.asOperand Source.Precedence.before e (Source.form depth false e) >>= _) = _
    rw [hl]
    rfl
  exact ⟨rfl, _, hform, prints_before hop hshows⟩

theorem scan_after : ∀ op ∈ operatorsAfter, ∀ rest,
    scan true (op.toList ++ rest) = some (some (.mark op), rest) ∧
      Follows true (op.toList ++ rest) := by
  simp only [operatorsAfter, List.forall_mem_cons]
  exact ⟨fun rest => ⟨rfl, follows_char true rfl ('+' :: rest)⟩,
    fun rest => ⟨rfl, follows_char true rfl ('-' :: rest)⟩, nofun⟩

theorem scanned_after {op : String} (hop : op ∈ operatorsAfter) (hplace : isPlace e = true)
    (he : Scanned depth e) : Scanned depth (.unary .after op e) := by
  obtain ⟨l, hl, cs, hprints, hleads⟩ := he.place hplace
  have hmark : Prints (Follows false) (ofText op) op.toList [.mark op] :=
    prints_mark _ fun rest => (scan_after op hop rest).1
  have hform : Source.form depth false (.unary .after op e) = .ok (l ++ ofText op) := by
    show (Source.asOperand Source.Precedence.after e (Source.form depth false e) >>= _) = _
    rw [hl]
    rfl
  exact ⟨rfl, _, hform, _, hprints.append hmark fun rest _ => (scan_after op hop rest).2,
    hleads.append _⟩

theorem scanned_assign {op : String} {t v : Node} (hop : op ∈ assignments)
    (hplace : isPlace t = true) (ht : Scanned depth t) (hv : Scanned depth v) :
    Scanned depth (.assign op t v) := by
  obtain ⟨lt, hlt, cs, htarget, hleads⟩ := ht.place hplace
  obtain ⟨lv, hlv, cs', hvalue, -⟩ := hv.loose Source.Precedence.assign
  have hform : Source.form depth false (.assign op t v) =
      .ok (lt ++ ofText (" " ++ op ++ "= ") ++ lv) := by
    show (Source.asOperand Source.Precedence.after t (Source.form depth false t) >>= fun _ =>
      Source.asOperand Source.Precedence.assign v (Source.form depth false v) >>= _) = _
    rw [hlt, hlv]
    rfl
  have hsign := htarget.append (prints_assignment hop) fun rest _ => by
    rw [String.toList_append, String.toList_append, List.append_assoc, List.append_assoc]
    exact follows_char true rfl _
  have hall := hsign.append hvalue fun _ _ => trivial
  exact ⟨rfl, _, hform, _, hall, (hleads.append _).append _⟩

/-- A mark between two blanks. -/
theorem prints_spaced {s text : String} (ok : List Char → Prop)
    (htext : ∀ rest, text.toList ++ rest = ' ' :: (s.toList ++ ' ' :: rest))
    (h : ∀ rest, scan true (s.toList ++ rest) = some (some (.mark s), rest)) :
    Prints ok (ofText text) text.toList [.mark s] where
  spells := .text _
  scans rest us _ hs := by
    rw [htext]
    exact .blank rfl (.token (h _) (.blank rfl hs))

theorem scanned_conditional {t y n : Node} (ht : Scanned depth t) (hy : Scanned depth y)
    (hn : Scanned depth n) : Scanned depth (.conditional t y n) := by
  obtain ⟨lt, hlt, cs, htest, hleads⟩ := ht.loose Source.Precedence.or
  obtain ⟨ly, hly, cs', hyes, -⟩ := hy.loose Source.Precedence.assign
  obtain ⟨ln, hln, cs'', hno, -⟩ := hn.loose Source.Precedence.assign
  have hask : Prints (fun _ => True) (ofText " ? ") " ? ".toList [.mark "?"] :=
    prints_spaced _ (fun _ => rfl) fun _ => rfl
  have hcolon : Prints (fun _ => True) (ofText " : ") " : ".toList [.mark ":"] :=
    prints_spaced _ (fun _ => rfl) fun _ => rfl
  have hform : Source.form depth false (.conditional t y n) =
      .ok (lt ++ ofText " ? " ++ ly ++ ofText " : " ++ ln) := by
    show (Source.asOperand Source.Precedence.or t (Source.form depth false t) >>= fun _ =>
      Source.asOperand Source.Precedence.assign y (Source.form depth false y) >>= fun _ =>
      Source.asOperand Source.Precedence.assign n (Source.form depth false n) >>= _) = _
    rw [hlt, hly, hln]
    rfl
  have hall := ((((htest.append hask fun rest _ => follows_char false rfl _).append hyes fun _ _ =>
      trivial).append hcolon fun rest _ => follows_char false rfl _).append hno fun _ _ => trivial)
  exact ⟨rfl, _, hform, _, hall, (((hleads.append _).append _).append _).append _⟩

theorem scanned_seq (hlength : 2 ≤ es.length) (h : ∀ e ∈ es, Scanned depth e) :
    Scanned depth (.seq es) := by
  have hne : es ≠ [] := by
    rintro rfl
    cases hlength
  obtain ⟨ls, hls, -, cs, hprints, hleads⟩ := operands_scanned h
  have hform : Source.form depth false (.seq es) = .ok (Layout.joined ", " ls) := by
    show (Source.operands depth es >>= _) = _
    rw [hls]
    rfl
  exact ⟨rfl, _, hform, cs, hprints, hleads hne⟩

end

/-- Every expression of the fragment has a layout, which is scanned as its tokens. -/
theorem Legible.scanned {e : Node} (h : Legible e) (depth : Nat) : Scanned depth e := by
  have hliteral : ∀ w ∈ literalWords, isName w = true := by decide
  induction h with
  | name h _ => exact scanned_word rfl rfl rfl h
  | num h =>
    refine scanned_token rfl rfl rfl (fun rest hr => ?_) (leads_integer h)
    have hr' : Follows false rest := hr
    exact scan_integer h (hr'.mono fun c hc => by simpa [joins, goesOn] using hc)
  | string s =>
    refine scanned_token rfl rfl rfl (fun rest _ => scan_quote s rest) ?_
    exact ⟨'"', s.toList.flatMap Source.literalChar ++ ['"'], String.toList_ofList, by decide⟩
  | atom h => exact scanned_word rfl rfl rfl (hliteral _ h)
  | array _ ih => exact scanned_array ih
  | call hc _ ih ih' => exact scanned_call ih hc.isFunction ih'
  | new _ _ ih ih' => exact scanned_new ih ih'
  | dot _ hf ih => exact scanned_dot ih hf
  | sub _ _ ih ih' => exact scanned_sub ih ih'
  | binary hop _ _ ih ih' => exact scanned_binary hop ih ih'
  | before hop _ _ ih => exact scanned_before hop ih
  | after hop hplace _ ih => exact scanned_after hop hplace ih
  | assign hop hplace _ _ ih ih' => exact scanned_assign hop hplace ih ih'
  | conditional _ _ _ ih ih' ih'' => exact scanned_conditional ih ih' ih''
  | seq hlength _ ih => exact scanned_seq hlength ih

end Resumable.Reading
