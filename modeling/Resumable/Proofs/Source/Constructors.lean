/-
  Resumable.Proofs.Source.Constructors — which arguments a constructor takes.

  Behind the word `new` the grammar takes the first argument list that it comes to.  The printer
  puts a callee in parentheses if it is a call, but not if it is a member of one, and so the
  argument list of that call can stand bare in front of the list of the constructor.

  `parts` says what the text of a callee is made of outside its brackets, and which node each
  argument list there comes from; the text is composed of them (`form_parts`).  The argument lists
  of its calls are there for the taking: `readBehind` is what an expression is read as with some
  words `new` in front of it.  A constructor brings one word and one list, so what is read with it
  is what is read with one word more (`derives_applied`).

  Main statement: `render_attaches_arguments`.
-/
import Resumable.Proofs.Source.Spelling
import Resumable.Proofs.Source.Unambiguous
import Resumable.Proofs.Code.Figures
import Resumable.Proofs.Sorts.Gaps

namespace Resumable.Reading

open Source (Layout Style)
open Source.Layout (ofText)

/-! ## §1. What a text is made of outside its brackets. -/

/-- A part of the text of an expression. -/
inductive Part where
  /-- Text that is no argument list. -/
  | text (s : String)
  /-- A name or a literal, also one with brackets of its own. -/
  | whole (n : Node)
  /-- An operand in parentheses. -/
  | grouped (n : Node)
  /-- An index in brackets. -/
  | index (n : Node)
  /-- The argument list of a call. -/
  | callArguments (args : List Node)
  /-- The argument list of a constructor. -/
  | newArguments (args : List Node)

/-- How the printer lays a part out. -/
def Part.layout (depth : Nat) : Part → Except Failure Layout
  | text s => .ok (ofText s)
  | whole n => Source.form depth false n
  | grouped n => Layout.parens <$> Source.form depth false n
  | index n =>
    (ofText "[" ++ · ++ ofText "]") <$>
      Source.asOperand Source.Precedence.lowest n (Source.form depth false n)
  | callArguments args | newArguments args =>
    (fun items => (Layout.joined ", " items).parens) <$> Source.operands depth args

/-- The parts of an operand in a place: one in parentheses if it binds looser than the place asks
    for. -/
def operandParts (least : Nat) (e : Node) (ps : List Part) : List Part :=
  if Source.Precedence.ofNode e < least then [.grouped e] else ps

open Source.Precedence (call member) in
/-- The parts of an expression that binds at least as tightly as a call. -/
@[simp]
def parts : Node → List Part
  | .call c as =>
    (if Source.isFunction c then [.grouped c] else operandParts call c (parts c)) ++
      [.callArguments as]
  | .new c as => [.text "new "] ++ operandParts member c (parts c) ++ [.newArguments as]
  | .dot b f =>
    (if Source.isNumber b then [.grouped b] else operandParts call b (parts b)) ++
      [.text ("." ++ f)]
  | .sub b i => operandParts call b (parts b) ++ [.index i]
  | n => [.whole n]

/-- The parts of a callee behind `new`. -/
def calleeParts (c : Node) : List Part := operandParts Source.Precedence.member c (parts c)

/-- A layout is put together from parts. -/
inductive Composed (depth : Nat) : List Part → Layout → Prop
  | nil : Composed depth [] []
  | cons {p : Part} {ps : List Part} {l l' : Layout} (h : p.layout depth = .ok l)
      (others : Composed depth ps l') : Composed depth (p :: ps) (l ++ l')

section

variable {depth least : Nat} {e : Node} {p : Part} {ps qs : List Part} {l l' : Layout}

theorem Composed.single (h : p.layout depth = .ok l) : Composed depth [p] l := by
  have hall := Composed.cons h .nil
  rwa [List.append_nil] at hall

theorem Composed.append (h : Composed depth ps l) (h' : Composed depth qs l') :
    Composed depth (ps ++ qs) (l ++ l') := by
  induction h with
  | nil => exact h'
  | cons hp _ ih =>
    rw [List.cons_append, List.append_assoc]
    exact .cons hp ih

/-- An operand that binds as tightly as its place asks for is laid out as it is, any other one in
    parentheses. -/
theorem asOperand_eq_ok {f : Except Failure Layout} (h : Source.asOperand least e f = .ok l) :
    ∃ l', f = .ok l' ∧ l = if Source.Precedence.ofNode e < least then l'.parens else l' := by
  unfold Source.asOperand at h
  split at h
  · obtain ⟨l', hl', h⟩ := bind_eq_ok h
    cases h
    exact ⟨l', hl', rfl⟩
  · cases h

/-- The layout of an operand is composed of its parts, if its own layout is. -/
theorem operand_composed
    (h : Source.asOperand least e (Source.form depth false e) = .ok l)
    (hleast : Source.Precedence.call ≤ least)
    (hparts : ∀ l, Source.Precedence.call ≤ Source.Precedence.ofNode e →
      Source.form depth false e = .ok l → Composed depth (parts e) l) :
    Composed depth (operandParts least e (parts e)) l := by
  obtain ⟨l', hl', rfl⟩ := asOperand_eq_ok h
  unfold operandParts
  split
  · exact .single (by rw [Part.layout, hl']; rfl)
  · next hlt => exact hparts l' (Nat.le_trans hleast (Nat.le_of_not_lt hlt)) hl'

theorem arguments_composed {as : List Node} {items : List Layout}
    (h : Source.operands depth as = .ok items) (hp : p = .callArguments as ∨ p = .newArguments as) :
    Composed depth [p] (Layout.joined ", " items).parens := by
  refine .single ?_
  rcases hp with rfl | rfl <;> rw [Part.layout, h] <;> rfl

/-- The layout of an expression that binds at least as tightly as a call is composed of its
    parts. -/
theorem form_parts (e : Node) (depth : Nat) (l : Layout)
    (htight : Source.Precedence.call ≤ Source.Precedence.ofNode e)
    (h : Source.form depth false e = .ok l) : Composed depth (parts e) l := by
  cases e with
  | call c as =>
    rw [Source.form] at h
    obtain ⟨callee, hcallee, h⟩ := bind_eq_ok h
    obtain ⟨args, hargs, h⟩ := bind_eq_ok h
    cases h
    rw [parts]
    refine .append ?_ (arguments_composed hargs (.inl rfl))
    split
    · next hfun =>
      -- a function literal stands in the place as it is, and gets its parentheses behind that
      cases c with
      | function f ps b =>
        obtain ⟨l', hl', rfl⟩ := asOperand_eq_ok hcallee
        exact .single (by rw [Part.layout, hl']; rfl)
      | _ => cases hfun
    · exact operand_composed hcallee (Nat.le_refl _) fun l => form_parts c depth l
  | new c as =>
    rw [Source.form] at h
    obtain ⟨callee, hcallee, h⟩ := bind_eq_ok h
    obtain ⟨args, hargs, h⟩ := bind_eq_ok h
    cases h
    rw [parts]
    refine .append (.append (.single rfl) ?_) (arguments_composed hargs (.inr rfl))
    exact operand_composed hcallee (by decide) fun l => form_parts c depth l
  | dot b f =>
    rw [Source.form] at h
    obtain ⟨base, hbase, h⟩ := bind_eq_ok h
    cases h
    rw [parts]
    refine .append ?_ (.single rfl)
    split
    · next hnum =>
      cases b with
      | num x =>
        obtain ⟨l', hl', rfl⟩ := asOperand_eq_ok hbase
        exact .single (by rw [Part.layout, hl']; rfl)
      | _ => cases hnum
    · exact operand_composed hbase (Nat.le_refl _) fun l => form_parts b depth l
  | sub b i =>
    rw [Source.form] at h
    obtain ⟨base, hbase, h⟩ := bind_eq_ok h
    obtain ⟨index, hindex, h⟩ := bind_eq_ok h
    cases h
    rw [parts, List.append_assoc, List.append_assoc, ← List.append_assoc (ofText "[")]
    refine .append (operand_composed hbase (Nat.le_refl _) fun l => form_parts b depth l)
      (.single ?_)
    rw [Part.layout, hindex]
    rfl
  | _ => exact .single h
termination_by structural e

end

/-! ## §2. What a text is read as behind some words. -/

/-- Whether a part is the argument list of a call. -/
def Part.isCall : Part → Bool
  | callArguments _ => true
  | _ => false

/-- How many argument lists of calls there are among some parts. -/
def calls (ps : List Part) : Nat := ps.countP Part.isCall

open Source.Precedence (call member) in
mutual

/-- What the text of an expression is read as with some words `new` in front of it, which are not
    more than the argument lists of its calls outside brackets. -/
@[simp]
def readBehind : Nat → Node → Node
  | k, .call c as =>
    if k ≤ calls (operandParts call c (parts c)) then .call (readBehind k c) (readAll as)
    else .new (readBehind (k - 1) c) (readAll as)
  -- the word of the constructor is one more in front of its callee
  | k, .new c as =>
    if k + 1 ≤ calls (calleeParts c) then .call (readBehind (k + 1) c) (readAll as)
    else .new (readBehind k c) (readAll as)
  | k, .dot b f => .dot (readBehind k b) f
  | k, .sub b i => .sub (readBehind k b) (readBehind 0 i)
  | _, .array es => .array (readAll es)
  | _, .binary op l r => .binary op (readBehind 0 l) (readBehind 0 r)
  | _, .unary side op e => .unary side op (readBehind 0 e)
  | _, .assign op t v => .assign op (readBehind 0 t) (readBehind 0 v)
  | _, .conditional t y n => .conditional (readBehind 0 t) (readBehind 0 y) (readBehind 0 n)
  | _, .seq es => .seq (readAll es)
  | _, n => n

/-- What the members of an expression list are read as. -/
@[simp]
def readAll : List Node → List Node
  | [] => []
  | e :: es => readBehind 0 e :: readAll es

end

theorem readAll_eq (es : List Node) : readAll es = es.map (readBehind 0) := by
  induction es with
  | nil => rw [readAll, List.map_nil]
  | cons e es ih => rw [readAll, ih, List.map_cons]

/-- The words in front of an expression. -/
def news (k : Nat) : List Token := List.replicate k (.word "new")

theorem news_succ (k : Nat) (ts : List Token) :
    news (k + 1) ++ ts = .word "new" :: (news k ++ ts) := by
  rw [news, List.replicate_succ, List.cons_append]
  rfl

theorem news_append (k : Nat) (ts : List Token) :
    news k ++ .word "new" :: ts = news (k + 1) ++ ts := by
  induction k with
  | zero => rfl
  | succ k ih => rw [news_succ, news_succ, ih]

/-- With argument lists left over, an expression behind words is a call, and without a member. -/
def wanted (k open' : Nat) : Goal := if k < open' then .call else .member

/-- The tokens of an expression are read as `readBehind` says: on their own, and if it binds tightly
    also behind words. -/
structure Attaches (e : Node) : Prop where
  derived : ∀ opens, Derived opens (Source.Precedence.ofNode e) (spell e) (readBehind 0 e)
  behind : Source.Precedence.call ≤ Source.Precedence.ofNode e → ∀ opens, ∀ k ≤ calls (parts e),
    Derives opens (wanted k (calls (parts e))) (news k ++ spell e) [readBehind k e]

section

variable {opens : List Token → Node → Prop} {e : Node} {es : List Node} {g : Goal} {k : Nat}
  {ts : List Token} {least : Nat}

theorem wanted_base (k m : Nat) : wanted k m = .call ∨ wanted k m = .member := by
  unfold wanted
  split
  · exact .inl rfl
  · exact .inr rfl

theorem derived_of_base {p : Nat} {n : Node} (hp : 16 ≤ p) (hg : g = .call ∨ g = .member)
    (h : Derives opens g ts [n]) : Derived opens p ts n := by
  rw [Derived, if_pos hp]
  rcases hg with rfl | rfl
  · exact .inl h
  · exact .inr h

/-- An expression that binds tightly is read on its own as it is behind no words. -/
theorem Attaches.of_tight (htight : Source.Precedence.call ≤ Source.Precedence.ofNode e)
    (h : ∀ opens, ∀ k ≤ calls (parts e),
      Derives opens (wanted k (calls (parts e))) (news k ++ spell e) [readBehind k e]) :
    Attaches e :=
  ⟨fun opens => derived_of_base htight (wanted_base 0 _) (h opens 0 (Nat.zero_le _)), fun _ => h⟩

theorem Attaches.of_loose {p : Nat} (hlevel : Source.Precedence.ofNode e = p)
    (hp : p < Source.Precedence.call) (h : ∀ opens, Derived opens p (spell e) (readBehind 0 e)) :
    Attaches e := by
  subst hlevel
  exact ⟨h, fun htight => absurd hp (Nat.not_lt.mpr htight)⟩

/-- A name, a literal or an array takes no words. -/
theorem Attaches.of_primary (hlevel : Source.Precedence.ofNode e = Source.Precedence.primary)
    (hparts : parts e = [.whole e])
    (h : ∀ opens, Derives opens .primary (spell e) [readBehind 0 e]) : Attaches e := by
  have hcalls : calls (parts e) = 0 := by rw [hparts]; rfl
  refine .of_tight (hlevel ▸ by decide) fun opens k hk => ?_
  rw [hcalls] at hk ⊢
  obtain rfl := Nat.le_zero.mp hk
  exact .lift .primary (h opens)

/-- An operand is read in its place. -/
theorem Attaches.operand (h : Attaches e) (least : Nat) (hleast : least ≤ 18) :
    Derived opens least (operandTokens least e (spell e)) (readBehind 0 e) :=
  (h.derived opens).operand hleast

/-- A callee or a base is read behind words, which cannot get at what is in parentheses. -/
theorem Attaches.base (h : Attaches e) (hleast : Source.Precedence.call ≤ least) :
    ∀ k ≤ calls (operandParts least e (parts e)),
      Derives opens (wanted k (calls (operandParts least e (parts e))))
        (news k ++ operandTokens least e (spell e)) [readBehind k e] := by
  unfold operandParts operandTokens
  intro k hk
  split at hk
  · next hlt =>
    rw [if_pos hlt, if_pos hlt]
    obtain rfl := Nat.le_zero.mp hk
    exact (h.derived opens).grouped
  · next hlt =>
    rw [if_neg hlt, if_neg hlt]
    exact h.behind (Nat.le_trans hleast (Nat.le_of_not_lt hlt)) opens k hk

/-- An argument list behind a callee goes to the word in front, unless the argument lists of the
    callee have taken all words. -/
theorem derives_applied {r : Nat → Node} {open' : Nat} {us : List Token}
    (hc : ∀ k ≤ open', Derives opens (wanted k open') (news k ++ ts) [r k])
    (ha : Derives opens .arguments us es) (hk : k ≤ open' + 1) :
    Derives opens (wanted k (open' + 1)) (news k ++ (ts ++ us))
      [if k ≤ open' then .call (r k) es else .new (r (k - 1)) es] := by
  by_cases hle : k ≤ open'
  · rw [if_pos hle, wanted, if_pos (Nat.lt_succ_of_le hle), ← List.append_assoc]
    exact .call (wanted_base k open') (hc k hle) ha
  · obtain rfl : k = open' + 1 := by omega
    have hcallee := hc open' (Nat.le_refl _)
    rw [wanted, if_neg (Nat.lt_irrefl _)] at hcallee
    rw [if_neg hle, wanted, if_neg (Nat.lt_irrefl _), news_succ, ← List.append_assoc]
    exact .new hcallee ha

/-- Expressions between commas, as elements, as arguments and as members of a sequence. -/
theorem all_attach (h : ∀ e ∈ es, Attaches e) :
    Derives opens .elements (spellAll es) (readAll es) ∧
      Derives opens .arguments (grouped (spellAll es)) (readAll es) ∧
      (es ≠ [] → Derives opens .commas (spellAll es) (readAll es)) := by
  induction es with
  | nil =>
    rw [spellAll, readAll]
    exact ⟨.noElements, .noArguments, fun h => absurd rfl h⟩
  | cons e es ih =>
    obtain ⟨he, hes⟩ := List.forall_mem_cons.mp h
    have hfirst : Derives opens .assignment
        (operandTokens Source.Precedence.assign e (spell e)) [readBehind 0 e] :=
      he.operand Source.Precedence.assign (by decide)
    obtain ⟨helements, -, hcommas⟩ := ih hes
    rw [spellAll, readAll]
    cases es with
    | nil =>
      exact ⟨.lastElement hfirst, .arguments (.lastMember hfirst), fun _ => .lastMember hfirst⟩
    | cons e' es =>
      have hall := Derives.members hfirst (hcommas (List.cons_ne_nil e' es))
      rw [if_neg (by simp), List.append_assoc]
      exact ⟨.element hfirst helements, .arguments hall, fun _ => hall⟩

/-! ### One form at a time. -/

theorem calls_append (ps qs : List Part) : calls (ps ++ qs) = calls ps + calls qs :=
  List.countP_append

theorem attaches_call {c : Node} (hc : Attaches c) (hfun : Source.isFunction c = false)
    (h : ∀ e ∈ es, Attaches e) : Attaches (.call c es) := by
  have hparts : calls (parts (.call c es)) =
      calls (operandParts Source.Precedence.call c (parts c)) + 1 := by
    rw [parts, if_neg (by simp [hfun]), calls_append]
    rfl
  refine .of_tight (Nat.le_refl _) fun opens k hk => ?_
  rw [hparts] at hk ⊢
  rw [spell, readBehind]
  exact derives_applied (hc.base (Nat.le_refl _)) (all_attach h).2.1 hk

theorem attaches_new {c : Node} (hc : Attaches c) (h : ∀ e ∈ es, Attaches e) :
    Attaches (.new c es) := by
  have hparts : calls (parts (.new c es)) = calls (calleeParts c) := by
    rw [parts, calls_append, calls_append]
    exact Nat.zero_add _
  have hlevel : Source.Precedence.call ≤ Source.Precedence.ofNode (.new c es) := by
    rw [Source.Precedence.ofNode]
    split <;> decide
  refine .of_tight hlevel fun opens k hk => ?_
  rw [hparts] at hk ⊢
  rw [spell, readBehind]
  have hargs : Derives opens .arguments (grouped (spellAll es)) (readAll es) := (all_attach h).2.1
  have hall := derives_applied (k := k + 1) (hc.base (by decide)) hargs (Nat.succ_le_succ hk)
  have hgoal : wanted (k + 1) (calls (calleeParts c) + 1) = wanted k (calls (calleeParts c)) := by
    simp [wanted]
  rw [news_append, ← hgoal]
  exact hall

theorem attaches_dot {b : Node} (f : String) (hb : Attaches b) : Attaches (.dot b f) := by
  have htight : Source.Precedence.call ≤ Source.Precedence.member := by decide
  refine .of_tight htight fun opens k hk => ?_
  rw [parts, calls_append] at hk ⊢
  rw [spell, readBehind, ← List.append_assoc]
  cases hnum : Source.isNumber b with
  | true =>
    rw [hnum] at hk
    obtain rfl := Nat.le_zero.mp hk
    exact .dot f (.inr rfl) (hb.derived opens).grouped
  | false =>
    rw [hnum] at hk
    exact .dot f (wanted_base _ _) (hb.base (Nat.le_refl _) k hk)

theorem attaches_sub {b i : Node} (hb : Attaches b) (hi : Attaches i) : Attaches (.sub b i) := by
  have htight : Source.Precedence.call ≤ Source.Precedence.member := by decide
  refine .of_tight htight fun opens k hk => ?_
  rw [parts, calls_append] at hk ⊢
  rw [spell, readBehind, List.append_assoc, List.append_assoc, ← List.append_assoc]
  exact .sub (wanted_base _ _) (hb.base (Nat.le_refl _) k hk)
    (hi.operand Source.Precedence.lowest (by decide))

theorem derived_tier {n : Node} (hk : k ≤ 10) (h : Derived opens (4 + k) ts n) :
    Derives opens (.tier k) ts [n] := by
  match k with
  | 0 | 1 | 2 | 3 | 4 | 5 | 6 | 7 | 8 | 9 => exact h
  | 10 => exact .lift .unary h
  | k + 11 => omega

theorem derived_of_tier {n : Node} (hk : k < 10) (h : Derives opens (.tier k) ts [n]) :
    Derived opens (4 + k) ts n := by
  match k with
  | 0 | 1 | 2 | 3 | 4 | 5 | 6 | 7 | 8 | 9 => exact h
  | k + 10 => omega

theorem attaches_binary {op : String} {l r : Node} (hop : op ∈ tiers.flatten) (hl : Attaches l)
    (hr : Attaches r) : Attaches (.binary op l r) := by
  obtain ⟨k, hop⟩ := exists_tier hop
  have hk := tier_lt hop
  have hlevel : Source.Precedence.ofBinary op = 4 + k := ofBinary_tier k hk op hop
  have hloose : 4 + k < Source.Precedence.call :=
    Nat.lt_of_lt_of_le (Nat.add_lt_add_left hk 4) (by decide)
  refine .of_loose (p := 4 + k) hlevel hloose fun opens => ?_
  rw [spell, hlevel, readBehind, List.append_assoc]
  exact derived_of_tier hk (.binary hop (derived_tier (Nat.le_of_lt hk) (hl.operand _ (by omega)))
    (derived_tier hk (hr.operand _ (by omega))))

/-- What can be assigned to is read as it stands. -/
theorem Attaches.place (h : Attaches e) (hplace : isPlace e = true) :
    Derives opens .leftHand (operandTokens Source.Precedence.after e (spell e))
      [readBehind 0 e] := by
  have hlevel : 16 ≤ Source.Precedence.ofNode e := by
    cases e with
    | name _ | dot _ _ | sub _ _ => exact of_decide_eq_true rfl
    | _ => cases hplace
  rw [operandTokens, if_neg (Nat.not_lt.mpr (Nat.le_trans (by decide) hlevel))]
  exact Derives.leftHand ((h.derived opens).mono hlevel)

end

/-- The tokens of every expression of the fragment are read as `readBehind` says. -/
theorem Legible.attaches {e : Node} (h : Legible e) : Attaches e := by
  induction h with
  | name _ hfree => exact .of_primary rfl rfl fun _ => .name hfree
  | num => exact .of_primary rfl rfl fun _ => .num _
  | string s => exact .of_primary rfl rfl fun _ => .string s
  | atom h => exact .of_primary rfl rfl fun _ => .atom h
  | array _ ih => exact .of_primary rfl rfl fun _ => .array (all_attach ih).1
  | call hc _ ih ih' => exact attaches_call ih hc.isFunction ih'
  | new _ _ ih ih' => exact attaches_new ih ih'
  | dot _ _ ih => exact attaches_dot _ ih
  | sub _ _ ih ih' => exact attaches_sub ih ih'
  | binary hop _ _ ih ih' => exact attaches_binary hop ih ih'
  | before hop _ _ ih =>
    exact .of_loose (p := Source.Precedence.before) rfl (by decide) fun opens =>
      .before hop (ih.operand Source.Precedence.before (by decide))
  | after hop hplace _ ih =>
    exact .of_loose (p := Source.Precedence.after) rfl (by decide) fun opens =>
      .after hop (ih.place hplace)
  | assign hop hplace _ _ ih ih' =>
    refine .of_loose (p := Source.Precedence.assign) rfl (by decide) fun opens => ?_
    rw [spell, List.append_assoc]
    exact Derives.assign hop (ih.place hplace)
      (ih'.operand Source.Precedence.assign (by decide))
  | conditional _ _ _ ih ih' ih'' =>
    refine .of_loose (p := Source.Precedence.conditional) rfl (by decide) fun opens => ?_
    rw [spell, List.append_assoc, List.append_assoc, List.append_assoc]
    exact Derives.choice (ih.operand Source.Precedence.or (by decide))
      (ih'.operand Source.Precedence.assign (by decide))
      (ih''.operand Source.Precedence.assign (by decide))
  | @seq es hlength _ ih =>
    have hne : es ≠ [] := by
      rintro rfl
      cases hlength
    have hseq : sequence (readAll es) = .seq (readAll es) := by
      match es with
      | [] | [_] => simp at hlength
      | _ :: _ :: _ => rfl
    refine .of_loose (p := Source.Precedence.seq) rfl (by decide) fun opens => ?_
    have hcommas : Derives opens .commas (spellAll es) (readAll es) := (all_attach ih).2.2 hne
    have hall := Derives.expression hcommas
    rw [hseq] at hall
    exact hall

/-! ## §3. Constructors that keep their arguments. -/

/-- A constructor keeps its argument list: no call has one in the text of the callee outside
    brackets. -/
def KeepsArguments : Node → Prop
  | .new c _ => ∀ args, .callArguments args ∉ calleeParts c
  | _ => True

theorem calls_eq_zero {ps : List Part} : calls ps = 0 ↔ ∀ args, .callArguments args ∉ ps := by
  rw [calls, List.countP_eq_zero]
  constructor
  · exact fun h args hmem => h _ hmem rfl
  · intro h p hp hcall
    cases p <;> cases hcall
    exact h _ hp

theorem ofBinary_lt (op : String) : Source.Precedence.ofBinary op < Source.Precedence.call := by
  unfold Source.Precedence.ofBinary
  split <;> decide

/-- What is written as it is at the outside is a name or a literal. -/
theorem whole_mem_parts {n : Node} (e : Node)
    (htight : Source.Precedence.call ≤ Source.Precedence.ofNode e) (h : .whole n ∈ parts e) :
    Source.Precedence.ofNode n = Source.Precedence.primary := by
  have hoperand (least : Nat) (c : Node) (hleast : Source.Precedence.call ≤ least)
      (hc : Source.Precedence.call ≤ Source.Precedence.ofNode c → .whole n ∈ parts c →
        Source.Precedence.ofNode n = Source.Precedence.primary)
      (hmem : .whole n ∈ operandParts least c (parts c)) :
      Source.Precedence.ofNode n = Source.Precedence.primary := by
    unfold operandParts at hmem
    split at hmem
    · simp at hmem
    · next hlt => exact hc (Nat.le_trans hleast (Nat.le_of_not_lt hlt)) hmem
  cases e with
  | call c as =>
    rw [parts] at h
    split at h
    · simp at h
    · exact hoperand _ c (Nat.le_refl _) (whole_mem_parts c) (by simpa using h)
  | new c as =>
    rw [parts] at h
    exact hoperand Source.Precedence.member c (by decide) (whole_mem_parts c) (by simpa using h)
  | dot b f =>
    rw [parts] at h
    split at h
    · simp at h
    · exact hoperand _ b (Nat.le_refl _) (whole_mem_parts b) (by simpa using h)
  | sub b i =>
    rw [parts] at h
    exact hoperand _ b (Nat.le_refl _) (whole_mem_parts b) (by simpa using h)
  | seq _ | assign _ _ _ | conditional _ _ _ => exact absurd htight (of_decide_eq_false rfl)
  | unary side _ _ => cases side <;> exact absurd htight (of_decide_eq_false rfl)
  | binary op _ _ => exact absurd htight (Nat.not_le.mpr (ofBinary_lt op))
  | _ =>
    cases List.mem_singleton.mp h
    rfl
termination_by structural e

section

open Node (Throughout throughout_iff forall_one forall_two forall_three forall_list forall_applied)

variable {e : Node} {es : List Node}

theorem readAll_eq_self (h : ∀ e ∈ es, (readBehind 0 e = e ↔ Throughout KeepsArguments e)) :
    readAll es = es ↔ ∀ e ∈ es, Throughout KeepsArguments e := by
  induction es with
  | nil => exact iff_of_true (by rw [readAll]) (List.forall_mem_nil _)
  | cons e es ih =>
    obtain ⟨he, hes⟩ := List.forall_mem_cons.mp h
    rw [readAll, List.cons.injEq, he, ih hes, List.forall_mem_cons]

/-- An expression is read as itself if and only if every constructor in it keeps its arguments. -/
theorem Legible.readBehind_eq_self (h : Legible e) :
    readBehind 0 e = e ↔ Throughout KeepsArguments e := by
  induction h with
  | name | num | string | atom =>
    refine iff_of_true (by rw [readBehind] <;> exact nofun) ((throughout_iff rfl).mpr ⟨trivial, ?_⟩)
    exact List.forall_mem_nil _
  | array _ ih | seq _ _ ih =>
    rw [readBehind, throughout_iff rfl, forall_list rfl]
    simp [KeepsArguments, readAll_eq_self ih]
  | call _ _ ih ih' =>
    rw [readBehind, if_pos (Nat.zero_le _), throughout_iff rfl, forall_applied rfl]
    simp [KeepsArguments, ih, readAll_eq_self ih']
  | @new c as _ _ ih ih' =>
    rw [readBehind, throughout_iff rfl, forall_applied rfl, KeepsArguments, ← calls_eq_zero]
    split
    · next hcalls => simp [Nat.ne_of_gt hcalls]
    · next hcalls =>
      have hnone : calls (calleeParts c) = 0 := by omega
      simp [hnone, ih, readAll_eq_self ih']
  | dot _ _ ih | before _ _ _ ih | after _ _ _ ih =>
    rw [readBehind, throughout_iff rfl, forall_one rfl]
    simp [KeepsArguments, ih]
  | sub _ _ ih ih' | binary _ _ _ ih ih' | assign _ _ _ _ ih ih' =>
    rw [readBehind, throughout_iff rfl, forall_two rfl]
    simp [KeepsArguments, ih, ih']
  | conditional _ _ _ ih ih' ih'' =>
    rw [readBehind, throughout_iff rfl, forall_three rfl]
    simp [KeepsArguments, ih, ih', ih'']

end

/-! ## §4. Texts. -/

/-- An expression of the fragment has a text in every style, and the text is read as `readBehind`
    says and as nothing else, whatever functions and object literals are read as. -/
theorem Legible.reads {e : Node} (h : Legible e) (st : Style) (opens : List Token → Node → Prop) :
    ∃ text, Source.render st e = .ok text ∧ ∀ e', Reads opens text e' ↔ e' = readBehind 0 e := by
  obtain ⟨he, l, hl, cs, hprints, -⟩ := h.scanned 0
  have habsent : e.isAbsent = false := by
    cases e with
    | absent => cases he
    | _ => rfl
  have hwhole (opens : List Token → Node → Prop) :
      Derives opens .expression (spell e) [readBehind 0 e] :=
    (h.attaches.derived opens).mono (Nat.zero_le _)
  have hscans : Scans cs (spell e) := by
    have hall := hprints.scans [] [] nofun .done
    rwa [List.append_nil, List.append_nil] at hall
  refine ⟨st.write l, ?_, fun e' => ⟨?_, ?_⟩⟩
  · rw [Source.render, Source.layout, if_neg (by simp [habsent]), if_pos he, hl]
    rfl
  · rintro ⟨us, hlexed, hderives⟩
    rw [hprints.spells.write st] at hlexed
    -- the text has these tokens only, and they derive this expression only
    obtain rfl : us = spell e := hlexed.unique (hscans.lexed (hwhole opens))
    exact derives_unique (hwhole _) hderives
  · rintro rfl
    refine ⟨spell e, ?_, hwhole opens⟩
    rw [hprints.spells.write st]
    exact hscans.lexed (hwhole opens)

/-- The text of a constructor is the word `new`, the text of the callee and the argument list, and
    `calleeParts` says what the text of the callee is outside brackets.  If no argument list of a
    call is among that, the text is read as the constructor with the argument list, and if one is,
    as a call with it, of what is left when the constructor has taken the first such list.  So a
    text is read as the expression it comes from if and only if no constructor in it has a callee
    like that. -/
theorem render_attaches_arguments (c : Node) (as : List Node) :
    (∀ depth l, Source.form depth false (.new c as) = .ok l → ∃ callee args,
      Composed depth (calleeParts c) callee ∧ Source.operands depth as = .ok args ∧
      l = ofText "new " ++ callee ++ (Layout.joined ", " args).parens) ∧
    (∀ n, .whole n ∈ calleeParts c → Source.Precedence.ofNode n = Source.Precedence.primary) ∧
    (Legible (.new c as) → ∀ (st : Style) (opens : List Token → Node → Prop),
      ∃ text, Source.render st (.new c as) = .ok text ∧
        (KeepsArguments (.new c as) → ∀ e,
          Reads opens text e ↔ e = .new (readBehind 0 c) (as.map (readBehind 0))) ∧
        (¬ KeepsArguments (.new c as) → ∀ e,
          Reads opens text e ↔ e = .call (readBehind 1 c) (as.map (readBehind 0))) ∧
        (Reads opens text (.new c as) ↔ Node.Throughout KeepsArguments (.new c as))) := by
  refine ⟨fun depth l hl => ?_, fun n hn => ?_, fun h st opens => ?_⟩
  · rw [Source.form] at hl
    obtain ⟨callee, hcallee, hl⟩ := bind_eq_ok hl
    obtain ⟨args, hargs, hl⟩ := bind_eq_ok hl
    cases hl
    have hcomposed := operand_composed hcallee (by decide) fun l => form_parts c depth l
    exact ⟨callee, args, hcomposed, hargs, rfl⟩
  · unfold calleeParts operandParts at hn
    split at hn
    · simp at hn
    · next hlt => exact whole_mem_parts c (Nat.le_trans (by decide) (Nat.le_of_not_lt hlt)) hn
  · obtain ⟨text, htext, hreads⟩ := h.reads st opens
    refine ⟨text, htext, fun hkeeps e => ?_, fun hkeeps e => ?_, ?_⟩
    · have hnone : ¬ 0 + 1 ≤ calls (calleeParts c) := by
        rw [calls_eq_zero.mpr hkeeps]
        decide
      rw [hreads, readBehind, if_neg hnone, readAll_eq]
    · have hsome : 0 + 1 ≤ calls (calleeParts c) :=
        Nat.pos_of_ne_zero fun h0 => hkeeps (calls_eq_zero.mp h0)
      rw [hreads, readBehind, if_pos hsome, readAll_eq]
    · rw [hreads, eq_comm, h.readBehind_eq_self]

/-- A member as the callee, and a call among the arguments. -/
theorem render_attaches_arguments_of_member :
    let c : Node := .dot (.name "a") "b"
    let as : List Node := [.call (.name "f") []]
    Legible (.new c as) ∧ KeepsArguments (.new c as) ∧
      Source.render {} (.new c as) = .ok "new a.b(f())" ∧
      ∀ e, Reads (fun _ _ => False) "new a.b(f())" e ↔ e = .new c as := by
  intro c as
  have ha : Legible (.name "a") := .name (by decide) (by decide)
  have hf : Legible (.name "f") := .name (by decide) (by decide)
  have has : ∀ e ∈ as, Legible e :=
    List.forall_mem_singleton.mpr (.call hf (List.forall_mem_nil _))
  have hkeeps : KeepsArguments (.new c as) := calls_eq_zero.mp (by decide)
  have hnew : Legible (.new c as) := .new (.dot ha (by decide)) has
  obtain ⟨text, htext, hreads, -, -⟩ :=
    (render_attaches_arguments c as).2.2 hnew {} fun _ _ => False
  have htext' : Source.render {} (.new c as) = .ok "new a.b(f())" := rfl
  obtain rfl : text = "new a.b(f())" := Except.ok.inj (htext.symm.trans htext')
  exact ⟨hnew, hkeeps, htext, hreads hkeeps⟩

/-- A constructor that loses its argument list: the callee is a member of a call, and the list of
    the call comes first. -/
theorem render_loses_arguments :
    let c : Node := .dot (.call (.name "f") []) "x"
    Source.render .oneLine (.new c []) = .ok "new f().x()" ∧
      .callArguments [] ∈ calleeParts c ∧
      ∀ opens, (∀ e, Reads opens "new f().x()" e ↔ e = .call (.dot (.new (.name "f") []) "x") []) ∧
        ¬ Reads opens "new f().x()" (.new c []) := by
  intro c
  have hf : Legible (.name "f") := .name (by decide) (by decide)
  have hnew : Legible (.new c []) :=
    .new (.dot (.call hf (List.forall_mem_nil _)) (by decide)) (List.forall_mem_nil _)
  have htext' : Source.render .oneLine (.new c []) = .ok "new f().x()" := rfl
  refine ⟨htext', List.mem_cons_of_mem _ List.mem_cons_self, fun opens => ?_⟩
  obtain ⟨text, htext, hreads⟩ := hnew.reads .oneLine opens
  obtain rfl : text = "new f().x()" := Except.ok.inj (htext.symm.trans htext')
  have hcall : readBehind 0 (.new c []) = .call (.dot (.new (.name "f") []) "x") [] := rfl
  rw [hcall] at hreads
  exact ⟨hreads, fun h => by cases (hreads _).mp h⟩

end Resumable.Reading
