/-
  Resumable.Proofs.Source.Unambiguous — tokens are read in one way.

  The grammar passes on to itself on the left, and a derivation may end anywhere.  `parse` reads
  the tokens from left to right instead and never goes back: it takes an operand, and then goes on
  with what it has for as long as the next token binds at least as tightly as its bound (`more`).
  So what it gives is one result for each list of tokens, and it is enough that every derivation
  is what it gives.

  A derivation that ends in front of a token that binds less tightly than the goal lets go on is
  read up to there, and the reader goes on with what was derived (`Derives.parsed`).  Each goal has
  a tightest bound that its derivations can be read under (`Goal.bound`) and a tightest token that
  may follow them (`Goal.open`).

  Functions and object literals stay open in the grammar, and the reader has no result for a text
  with one; hence `Agrees`.

  Main statement: `derives_unique`.
-/
import Resumable.Proofs.Source.Grammar

namespace Resumable.Reading

/-! ## §1. Tokens behind and in front of an operand. -/

/-- What a token does behind an expression. -/
inductive Role where
  | dot
  | index
  | apply
  | after (op : String)
  | binary (op : String) (k : Nat)
  | choice
  | assign (op : String)
  /-- It ends the expression. -/
  | none
  deriving DecidableEq, Repr

/-- How tightly a token binds what stands in front of it. -/
def Role.level : Role → Nat
  | dot | index => 16
  | apply => 15
  | after _ => 14
  | binary _ k => 3 + k
  | choice => 2
  | assign _ => 1
  | none => 0

/-- The role of an operator. -/
def operatorRole (s : String) : Role :=
  match tiers.findIdx? (·.contains s) with
  | some k => .binary s k
  | none =>
    match assignments.find? fun op => op ++ "=" == s with
    | some op => .assign op
    | none => .none

/-- The role of a token. -/
def role : Token → Role
  | .mark s =>
    if s == "." then .dot
    else if s == "[" then .index
    else if s == "(" then .apply
    else if s == "?" then .choice
    else if operatorsAfter.contains s then .after s
    else operatorRole s
  | .word s => operatorRole s
  | _ => .none

/-- What a token does at the beginning of an expression. -/
inductive Opening where
  | value (n : Node)
  | before (op : String)
  | paren
  | bracket
  | new
  /-- It begins none, or a construct that stays open. -/
  | none
  deriving Repr

/-- The opening of a reserved word or a mark. -/
def markOpening (s : String) : Opening :=
  if literalWords.contains s then .value (.atom s)
  else if s == "this" then .value (.name "this")
  else if s == "new" then .new
  else if s == "(" then .paren
  else if s == "[" then .bracket
  else if operatorsBefore.contains s then .before s
  else .none

/-- The opening of a token. -/
def opening : Token → Opening
  | .word x => if reservedWords.contains x then markOpening x else .value (.name x)
  | .mark s => markOpening s
  | .num x => .value (.num x)
  | .string s => .value (.string s)
  | .regexp p f => .value (.regexp p f)

/-- How tightly the first token of a list binds what stands in front of the list. -/
def headLevel : List Token → Nat
  | [] => 0
  | t :: _ => (role t).level

/-! ## §2. Reading from left to right. -/

/-- Takes a word. -/
def expectWord : List Token → Option (String × List Token)
  | .word x :: s => some (x, s)
  | _ => none

/-- What a reader reads, with a token behind it. -/
def closedBy {α : Type} (t : Token) (x : Option (α × List Token)) : Option (α × List Token) := do
  let (a, s) ← x
  if s.head? = some t then some (a, s.tail) else none

/-- Goes on with the tokens that a reader left, if they are fewer than a number.  A reader that
    leaves as many as it was given has no result, and so reading comes to an end. -/
def goOn {α β : Type} (n : Nat) (x : Option (α × List Token))
    (f : α → (s : List Token) → s.length < n → Option β) : Option β := do
  let (a, s) ← x
  if h : s.length < n then f a s h else none

theorem length_lt_append (ts rest : List Token) : rest.length < (ts ++ rest).length + 1 := by
  rw [List.length_append]
  omega

theorem length_lt_append_cons (ts : List Token) (t : Token) (rest : List Token) :
    rest.length < (ts ++ t :: rest).length + 1 := by
  rw [List.length_append, List.length_cons]
  omega

theorem length_tail_lt {t : Token} {s : List Token} (h : s.head? = some t) :
    s.tail.length < s.length := by
  cases s with
  | nil => cases h
  | cons u s => exact Nat.lt_succ_self s.length

mutual

/-- Reads an expression whose operators bind at least as tightly as a bound. -/
def parse (m : Nat) : List Token → Option (Node × List Token)
  | [] => none
  | t :: s =>
    match opening t with
    | .value n => more m n s
    | .before op =>
      goOn (s.length + 1) (parse 13 s) fun e s' _ => more m (.unary .before op e) s'
    | .paren =>
      goOn (s.length + 1) (closedBy (.mark ")") (parseAll s)) fun es s' _ =>
        more m (sequence es) s'
    | .bracket =>
      goOn (s.length + 1) (closedBy (.mark "]") (parseElements s)) fun es s' _ =>
        more m (.array es) s'
    | .new =>
      goOn (s.length + 1) (parse 16 s) fun c s' _ =>
        if headLevel s' = 15 then
          goOn (s.length + 1) (parseArguments s') fun es s'' _ => more m (.new c es) s''
        else more m (.new c []) s'
    | .none => none
termination_by s => 2 * s.length
decreasing_by all_goals simp only [List.length_cons]; omega

/-- Goes on with an expression for as long as tokens bind at least as tightly as a bound. -/
def more (m : Nat) (v : Node) : List Token → Option (Node × List Token)
  | [] => some (v, [])
  | t :: s =>
    if (role t).level < m then some (v, t :: s)
    else
      match role t with
      | .dot => goOn (s.length + 1) (expectWord s) fun f s' _ => more m (.dot v f) s'
      | .index =>
        goOn (s.length + 1) (closedBy (.mark "]") (parseAll s)) fun es s' _ =>
          more m (.sub v (sequence es)) s'
      | .apply =>
        goOn (s.length + 1) (parseArguments (t :: s)) fun es s' _ => more m (.call v es) s'
      | .after op => more m (.unary .after op v) s
      | .binary op k =>
        goOn (s.length + 1) (parse (4 + k) s) fun r s' _ => more m (.binary op v r) s'
      | .choice =>
        goOn (s.length + 1) (closedBy (.mark ":") (parse 1 s)) fun y s' _ =>
          goOn (s.length + 1) (parse 1 s') fun n s'' _ => more m (.conditional v y n) s''
      | .assign op =>
        goOn (s.length + 1) (parse 1 s) fun r s' _ => more m (.assign op v r) s'
      | .none => none
termination_by s => 2 * s.length + 1
decreasing_by all_goals simp only [List.length_cons]; omega

/-- Reads expressions between commas. -/
def parseAll (s : List Token) : Option (List Node × List Token) :=
  goOn (s.length + 1) (parse 1 s) fun e s' _ =>
    if h : s'.head? = some (.mark ",") then
      have := length_tail_lt h
      (parseAll s'.tail).map (Prod.map (e :: ·) id)
    else some ([e], s')
termination_by 2 * s.length + 1
decreasing_by all_goals omega

/-- Reads arguments with their parentheses. -/
def parseArguments (s : List Token) : Option (List Node × List Token) :=
  if h : s.head? = some (.mark "(") then
    have := length_tail_lt h
    if s.tail.head? = some (.mark ")") then some ([], s.tail.tail)
    else closedBy (.mark ")") (parseAll s.tail)
  else none
termination_by 2 * s.length
decreasing_by all_goals omega

/-- Reads the elements of an array up to its bracket. -/
def parseElements (s : List Token) : Option (List Node × List Token) :=
  if s.head? = some (.mark "]") then some ([], s)
  else if h : s.head? = some (.mark ",") then
    have := length_tail_lt h
    (parseElements s.tail).map (Prod.map (.absent :: ·) id)
  else
    goOn (s.length + 1) (parse 1 s) fun e s' _ =>
      if h : s'.head? = some (.mark ",") then
        have := length_tail_lt h
        (parseElements s'.tail).map (Prod.map (e :: ·) id)
      else some ([e], s')
termination_by 2 * s.length + 1
decreasing_by all_goals omega

end

/-! ### Steps of the reader. -/

section

variable {m k : Nat} {v e : Node} {op : String} {t : Token} {s rest : List Token}

theorem role_operator (h : op ∈ tiers.getD k []) : role (operator op) = .binary op k := by
  have hall : ∀ k < 10, ∀ op ∈ tiers.getD k [], role (operator op) = .binary op k := by decide
  exact hall k (tier_lt h) op h

theorem role_assignment : ∀ op ∈ assignments, role (.mark (op ++ "=")) = .assign op := by decide

theorem role_after : ∀ op ∈ operatorsAfter, role (.mark op) = .after op := by decide

theorem opening_before : ∀ op ∈ operatorsBefore, opening (operator op) = .before op := by
  simp only [operatorsBefore, List.forall_mem_cons]
  exact ⟨rfl, rfl, rfl, rfl, rfl, rfl, rfl, rfl, rfl, nofun⟩

theorem opening_atom : ∀ w ∈ literalWords, opening (.word w) = .value (.atom w) := by
  simp only [literalWords, List.forall_mem_cons]
  exact ⟨rfl, rfl, rfl, nofun⟩

theorem opening_name {x : String} (h : x ∉ reservedWords) :
    opening (.word x) = .value (.name x) := if_neg (by simpa using h)

/-- The reader stops in front of a token that binds less tightly than its bound. -/
theorem more_stop (h : headLevel rest < m) : more m v rest = some (v, rest) := by
  cases rest with
  | nil => rw [more]
  | cons t s =>
    rw [more]
    exact if_pos h

theorem parse_value (h : opening t = .value e) : parse m (t :: s) = more m e s := by
  rw [parse, h]

end

/-! ## §3. Readers that have a result. -/

/-- A reader has a result, or it has none because of a construct that stays open. -/
def Agrees {α : Type} (p : Prop) (x y : Option α) : Prop := x = y ∨ p ∧ x = none

namespace Agrees

variable {α β : Type} {p : Prop} {x y : Option α} {z : Option β} {a : α}

theorem of_eq (h : x = y) : Agrees p x y := .inl h

theorem trans {y' : Option α} (h : Agrees p x y) (h' : Agrees p y y') : Agrees p x y' := by
  rcases h with rfl | h
  · exact h'
  · exact .inr h

/-- What was read is kept with more around it. -/
theorem map (h : Agrees p x (some a)) (f : α → β) : Agrees p (x.map f) (some (f a)) := by
  rcases h with rfl | ⟨hp, rfl⟩
  · exact .inl rfl
  · exact .inr ⟨hp, rfl⟩

/-- Reading goes on with what was read, as long as less is left. -/
theorem goOn {x : Option (α × List Token)} {s : List Token} {n : Nat}
    {f : α → (s : List Token) → s.length < n → Option β} (h : Agrees p x (some (a, s)))
    (hs : s.length < n) (h' : Agrees p (f a s hs) z) : Agrees p (goOn n x f) z := by
  rcases h with rfl | ⟨hp, rfl⟩
  · have hstep : Reading.goOn n (some (a, s)) f = f a s hs := dif_pos hs
    rwa [hstep]
  · exact .inr ⟨hp, rfl⟩

theorem closedBy {x : Option (α × List Token)} {t : Token} {s : List Token}
    (h : Agrees p x (some (a, t :: s))) : Agrees p (closedBy t x) (some (a, s)) := by
  rcases h with rfl | ⟨hp, rfl⟩
  · exact .inl (if_pos rfl)
  · exact .inr ⟨hp, rfl⟩

/-- Where nothing stays open, a reader has the result. -/
theorem eq (h : Agrees p x y) (hp : ¬ p) : x = y := h.resolve_right fun h' => hp h'.1

end Agrees

/-! ## §4. Derivations are read. -/

/-- The tightest bound under which derivations of a goal are read. -/
def Goal.bound : Goal → Nat
  | assignment => 1
  | conditional => 2
  | tier k => min (3 + k) 13
  | unary => 13
  | updated => 14
  | leftHand | call => 15
  | construction | member | primary => 16
  | expression | commas | arguments | elements => 0

/-- The tightest token that may follow a derivation of a goal. -/
def Goal.open : Goal → Nat
  | tier k => min (3 + k) 12
  | unary => 12
  | updated | leftHand | construction => 14
  | call | member | primary => 16
  | assignment | conditional | expression | commas | arguments | elements => 0

variable {opens : List Token → Node → Prop} {p : Prop} {g g' : Goal} {ts us : List Token}
  {e : Node} {vs : List Node} {m : Nat}

/-- Tokens are read as an expression, up to where they end. -/
def ReadAs (p : Prop) (g : Goal) (ts : List Token) (e : Node) : Prop :=
  ∀ m ≤ g.bound, ∀ rest, headLevel rest ≤ g.open →
    Agrees p (parse m (ts ++ rest)) (more m e rest)

/-- Tokens are read as expressions between commas. -/
def ReadAll (p : Prop) (ts : List Token) (es : List Node) : Prop :=
  ∀ rest, headLevel rest = 0 → rest.head? ≠ some (.mark ",") →
    Agrees p (parseAll (ts ++ rest)) (some (es, rest))

/-- Tokens are read as what a goal derives from them. -/
def ReadFor (p : Prop) : Goal → List Token → List Node → Prop
  | .commas, ts, es => ReadAll p ts es
  | .expression, ts, vs => ∃ es, vs = [sequence es] ∧ ReadAll p ts es
  | .arguments, ts, es =>
    (∃ s, ts = .mark "(" :: s) ∧ ∀ rest, Agrees p (parseArguments (ts ++ rest)) (some (es, rest))
  | .elements, ts, es =>
    ∀ rest, rest.head? = some (.mark "]") → Agrees p (parseElements (ts ++ rest)) (some (es, rest))
  | g, ts, vs => ∃ e, vs = [e] ∧ ReadAs p g ts e

theorem Lifts.bounds (h : Lifts g g') : g'.bound ≤ g.bound ∧ g'.open ≤ g.open := by
  cases h with
  | unary => decide
  | tier k =>
    simp only [Goal.bound, Goal.open]
    omega
  | _ => decide

theorem Lifts.readFor (h : Lifts g g') (hr : ReadFor p g ts vs) : ReadFor p g' ts vs := by
  obtain ⟨hb, ho⟩ := h.bounds
  obtain ⟨e, he, hread⟩ : ∃ e, vs = [e] ∧ ReadAs p g ts e := by
    cases h <;> exact hr
  have hread' : ReadAs p g' ts e :=
    fun m hm rest hrest => hread m (Nat.le_trans hm hb) rest (Nat.le_trans hrest ho)
  cases h <;> exact ⟨e, he, hread'⟩

/-- What a token is that ends a list or goes on with it. -/
def Token.closes (t : Token) : Bool := [.mark ")", .mark "]", .mark ","].contains t

/-- No expression starts with a token that ends a list. -/
theorem Derives.starts (h : Derives opens g ts vs) (hg : g ≠ .elements) :
    ∃ t s, ts = t :: s ∧ t.closes = false := by
  have hbefore : ∀ op ∈ operatorsBefore, (operator op).closes = false := by decide
  induction h with
  | lift hl _ ih => exact ih (by rintro rfl; cases hl)
  | expression _ ih | lastMember _ ih => exact ih nofun
  | members _ _ ih | assign _ _ _ ih | choice _ _ _ ih | binary _ _ _ ih | after _ _ ih =>
    obtain ⟨t, s, rfl, ht⟩ := ih nofun
    exact ⟨t, _, rfl, ht⟩
  | call hcm _ _ ih | dot _ hcm _ ih | sub hcm _ _ ih =>
    obtain ⟨t, s, rfl, ht⟩ := ih (by rcases hcm with rfl | rfl <;> nofun)
    exact ⟨t, _, rfl, ht⟩
  | before hop => exact ⟨_, _, rfl, hbefore _ hop⟩
  | new | newBare | noArguments | arguments | this | name | atom | num | string | regexp | array
  | parens => exact ⟨_, _, rfl, rfl⟩
  | opened h =>
    refine ⟨_, _, rfl, ?_⟩
    rcases h with rfl | rfl <;> rfl
  | noElements | lastElement | hole | element => exact absurd rfl hg

section

variable {v r y n : Node} {es : List Node} {ws rest s : List Token} {op : String} {k : Nat}

/-! ### What goes on with an expression. -/

/-- An operand that ends in front of a token that binds less tightly than the bound. -/
theorem ReadAs.operand (hr : ReadAs p g ts e) (rest : List Token) (hm : m ≤ g.bound)
    (hrest : headLevel rest ≤ g.open) (hstop : headLevel rest < m) :
    Agrees p (parse m (ts ++ rest)) (some (e, rest)) :=
  (hr m hm rest hrest).trans (.of_eq (more_stop hstop))

theorem more_dot {f : String} (hm : m ≤ Role.level .dot) :
    more m v (.mark "." :: .word f :: s) = more m (.dot v f) s := by
  rw [more, show role (.mark ".") = .dot from rfl, if_neg (Nat.not_lt.mpr hm)]
  exact dif_pos (length_lt_append [.word f] s)

theorem more_after (hm : m ≤ Role.level (.after op)) (h : op ∈ operatorsAfter) :
    more m v (.mark op :: s) = more m (.unary .after op v) s := by
  rw [more, role_after op h, if_neg (Nat.not_lt.mpr hm)]

theorem more_index (hr : ReadAll p us es) (hm : m ≤ Role.level .index) :
    Agrees p (more m v (.mark "[" :: (us ++ .mark "]" :: rest)))
      (more m (.sub v (sequence es)) rest) := by
  rw [more, show role (.mark "[") = .index from rfl, if_neg (Nat.not_lt.mpr hm)]
  exact (hr (.mark "]" :: rest) rfl (by simp)).closedBy.goOn (length_lt_append_cons _ _ _)
    (.of_eq rfl)

theorem more_apply (hr : ReadFor p .arguments us es) (hm : m ≤ Role.level .apply) :
    Agrees p (more m v (us ++ rest)) (more m (.call v es) rest) := by
  obtain ⟨⟨s, rfl⟩, hread⟩ := hr
  rw [List.cons_append, more, show role (.mark "(") = .apply from rfl, if_neg (Nat.not_lt.mpr hm)]
  exact (hread rest).goOn (length_lt_append _ _) (.of_eq rfl)

theorem more_binary (h : op ∈ tiers.getD k []) (hr : ReadAs p (.tier (k + 1)) us r)
    (hm : m ≤ Role.level (.binary op k)) (hrest : headLevel rest ≤ Goal.open (.tier k)) :
    Agrees p (more m v (operator op :: (us ++ rest))) (more m (.binary op v r) rest) := by
  have hk := tier_lt h
  simp only [Goal.open] at hrest
  rw [more, role_operator h, if_neg (Nat.not_lt.mpr hm)]
  refine (hr.operand rest ?_ ?_ ?_).goOn (length_lt_append _ _) (.of_eq rfl)
  · simp only [Goal.bound]
    omega
  · simp only [Goal.open]
    omega
  · omega

theorem more_choice (hy : ReadAs p .assignment us y) (hn : ReadAs p .assignment ws n)
    (hm : m ≤ Role.level .choice) (hrest : headLevel rest = 0) :
    Agrees p (more m v (.mark "?" :: (us ++ .mark ":" :: (ws ++ rest))))
      (more m (.conditional v y n) rest) := by
  have hyes := hy.operand (.mark ":" :: (ws ++ rest)) (Nat.le_refl 1) (Nat.le_refl 0)
    Nat.zero_lt_one
  have hno := hn.operand rest (Nat.le_refl 1) (Nat.le_of_eq hrest) (by omega)
  rw [more, show role (.mark "?") = .choice from rfl, if_neg (Nat.not_lt.mpr hm)]
  refine hyes.closedBy.goOn (length_lt_append_cons _ _ _) (hno.goOn ?_ (.of_eq rfl))
  simp only [List.length_append, List.length_cons]
  omega

theorem more_assign (h : op ∈ assignments) (hr : ReadAs p .assignment us r)
    (hm : m ≤ Role.level (.assign op)) (hrest : headLevel rest = 0) :
    Agrees p (more m v (.mark (op ++ "=") :: (us ++ rest))) (more m (.assign op v r) rest) := by
  have hvalue := hr.operand rest (Nat.le_refl 1) (Nat.le_of_eq hrest) (by omega)
  rw [more, role_assignment op h, if_neg (Nat.not_lt.mpr hm)]
  exact hvalue.goOn (length_lt_append _ _) (.of_eq rfl)

end

theorem Derives.head_ne (h : Derives opens g ts vs) (hg : g ≠ .elements) (rest : List Token) :
    (ts ++ rest).head? ≠ some (.mark ")") ∧ (ts ++ rest).head? ≠ some (.mark "]") ∧
      (ts ++ rest).head? ≠ some (.mark ",") := by
  obtain ⟨t, s, rfl, ht⟩ := h.starts hg
  refine ⟨?_, ?_, ?_⟩ <;>
    · rintro ⟨⟩
      cases ht

theorem headLevel_bracket {rest : List Token} (h : rest.head? = some (.mark "]")) :
    headLevel rest = 0 := by
  cases rest with
  | nil => rfl
  | cons t s =>
    cases h
    rfl

/-- A base of a member access or of a call. -/
theorem ReadFor.base (hr : ReadFor p g ts [e]) (h : g = .call ∨ g = .member) :
    15 ≤ g.bound ∧ g.bound ≤ 16 ∧ g.open = 16 ∧ ReadAs p g ts e := by
  rcases h with rfl | rfl
  · obtain ⟨e', he, hread⟩ := hr
    cases he
    exact ⟨by decide, by decide, rfl, hread⟩
  · obtain ⟨e', he, hread⟩ := hr
    cases he
    exact ⟨by decide, by decide, rfl, hread⟩

theorem ReadAs.base (hr : ReadAs p g ts e) (h : g = .call ∨ g = .member) : ReadFor p g ts [e] := by
  rcases h with rfl | rfl <;> exact ⟨e, rfl, hr⟩

/-- Every derivation is read, up to where it ends. -/
theorem Derives.read (h : Derives opens g ts vs) : ReadFor (∃ s n, opens s n) g ts vs := by
  induction h with
  | lift hl _ ih => exact hl.readFor ih
  | expression _ ih => exact ⟨_, rfl, ih⟩
  | lastMember _ ih =>
    obtain ⟨_, ⟨rfl⟩, ih⟩ := ih
    intro rest hlevel hcomma
    rw [parseAll]
    refine (ih.operand rest (Nat.le_refl 1) (Nat.le_of_eq hlevel) (by omega)).goOn
      (length_lt_append _ _) ?_
    exact .of_eq (dif_neg hcomma)
  | @members ts us e es _ _ ih ih' =>
    obtain ⟨_, ⟨rfl⟩, ih⟩ := ih
    intro rest hlevel hcomma
    rw [parseAll, List.append_assoc]
    refine (ih.operand (.mark "," :: (us ++ rest)) (Nat.le_refl 1) (Nat.le_refl 0)
      Nat.zero_lt_one).goOn (length_lt_append _ _) ?_
    rw [dif_pos List.head?_cons]
    exact (ih' rest hlevel hcomma).map _
  | @assign op ts us t v hop _ _ ih ih' =>
    obtain ⟨_, ⟨rfl⟩, ih⟩ := ih
    obtain ⟨_, ⟨rfl⟩, ih'⟩ := ih'
    refine ⟨_, rfl, fun m hm rest hrest => ?_⟩
    have hlevel : headLevel (.mark (op ++ "=") :: (us ++ rest)) = 1 :=
      congrArg Role.level (role_assignment op hop)
    have htarget := ih m (Nat.le_trans hm (by decide)) (.mark (op ++ "=") :: (us ++ rest))
      (by rw [hlevel]; decide)
    rw [List.append_assoc]
    exact htarget.trans (more_assign hop ih' hm (Nat.le_zero.mp hrest))
  | @choice ts us ws t y n _ _ _ ih ih' ih'' =>
    obtain ⟨_, ⟨rfl⟩, ih⟩ := ih
    obtain ⟨_, ⟨rfl⟩, ih'⟩ := ih'
    obtain ⟨_, ⟨rfl⟩, ih''⟩ := ih''
    refine ⟨_, rfl, fun m hm rest hrest => ?_⟩
    have htest := ih m (Nat.le_trans hm (by decide))
      (.mark "?" :: (us ++ .mark ":" :: (ws ++ rest))) (show 2 ≤ 3 by decide)
    rw [List.append_assoc, List.cons_append, List.append_assoc, List.cons_append]
    exact htest.trans (more_choice ih' ih'' hm (Nat.le_zero.mp hrest))
  | @binary op k ts us l r hop _ _ ih ih' =>
    obtain ⟨_, ⟨rfl⟩, ih⟩ := ih
    obtain ⟨_, ⟨rfl⟩, ih'⟩ := ih'
    refine ⟨_, rfl, fun m hm rest hrest => ?_⟩
    have hk := tier_lt hop
    have hlevel : headLevel (operator op :: (us ++ rest)) = 3 + k :=
      congrArg Role.level (role_operator hop)
    have hleft := ih m hm (operator op :: (us ++ rest)) (by
      rw [hlevel, Goal.open]
      omega)
    rw [List.append_assoc]
    exact hleft.trans (more_binary hop ih' (Nat.le_trans hm (Nat.min_le_left _ _)) hrest)
  | @before op ts e hop _ ih =>
    obtain ⟨_, ⟨rfl⟩, ih⟩ := ih
    refine ⟨_, rfl, fun m _ rest hrest => ?_⟩
    rw [List.cons_append, parse, opening_before op hop]
    exact (ih.operand rest (Nat.le_refl 13) hrest (Nat.lt_succ_of_le hrest)).goOn
      (length_lt_append _ _) (.of_eq rfl)
  | @after op ts e hop _ ih =>
    obtain ⟨_, ⟨rfl⟩, ih⟩ := ih
    refine ⟨_, rfl, fun m hm rest _ => ?_⟩
    have hlevel : headLevel (.mark op :: rest) = 14 := congrArg Role.level (role_after op hop)
    have hoperand := ih m (Nat.le_trans hm (by decide)) (.mark op :: rest) (Nat.le_of_eq hlevel)
    rw [List.append_assoc]
    exact hoperand.trans (.of_eq (more_after hm hop))
  | @call g ts us c es hcm _ _ ih ih' =>
    obtain ⟨hbound, -, hopen, hread⟩ := ih.base hcm
    refine ⟨_, rfl, fun m hm rest _ => ?_⟩
    have hlevel : headLevel (us ++ rest) = 15 := by
      obtain ⟨⟨s, rfl⟩, -⟩ := ih'
      rfl
    have hcallee := hread m (Nat.le_trans hm hbound) (us ++ rest) (by rw [hlevel, hopen]; decide)
    rw [List.append_assoc]
    exact hcallee.trans (more_apply ih' hm)
  | @dot g ts b f hcm _ ih =>
    obtain ⟨-, hbound, hopen, hread⟩ := ih.base hcm
    refine ReadAs.base (fun m hm rest _ => ?_) hcm
    have hbase := hread m hm (.mark "." :: .word f :: rest) (Nat.le_of_eq hopen.symm)
    rw [List.append_assoc]
    exact hbase.trans (.of_eq (more_dot (Nat.le_trans hm hbound)))
  | @sub g ts us b i hcm _ _ ih ih' =>
    obtain ⟨-, hbound, hopen, hread⟩ := ih.base hcm
    obtain ⟨es, ⟨rfl⟩, ih'⟩ := ih'
    refine ReadAs.base (fun m hm rest _ => ?_) hcm
    have hbase := hread m hm (.mark "[" :: (us ++ .mark "]" :: rest)) (Nat.le_of_eq hopen.symm)
    rw [List.append_assoc, List.cons_append, List.append_assoc]
    exact hbase.trans (more_index ih' (Nat.le_trans hm hbound))
  | @new ts us c es _ _ ih ih' =>
    obtain ⟨_, ⟨rfl⟩, ih⟩ := ih
    refine ⟨_, rfl, fun m _ rest _ => ?_⟩
    have hlevel : headLevel (us ++ rest) = 15 := by
      obtain ⟨⟨s, rfl⟩, -⟩ := ih'
      rfl
    have hcallee := ih.operand (us ++ rest) (Nat.le_refl 16) (by rw [hlevel]; decide)
      (by rw [hlevel]; decide)
    rw [List.cons_append, List.append_assoc, parse, show opening (.word "new") = .new from rfl]
    refine hcallee.goOn (length_lt_append _ _) ?_
    rw [if_pos hlevel]
    refine (ih'.2 rest).goOn ?_ (.of_eq rfl)
    rw [List.length_append, List.length_append]
    omega
  | @newBare ts c _ ih =>
    obtain ⟨_, ⟨rfl⟩, ih⟩ := ih
    refine ⟨_, rfl, fun m _ rest hrest => ?_⟩
    have hrest' : headLevel rest ≤ 14 := hrest
    rw [List.cons_append, parse, show opening (.word "new") = .new from rfl]
    refine (ih.operand rest (Nat.le_refl 16) hrest (by omega)).goOn (length_lt_append _ _) ?_
    exact .of_eq (if_neg (by omega))
  | noArguments => exact ⟨⟨_, rfl⟩, fun rest => .of_eq (by rw [parseArguments]; rfl)⟩
  | @arguments ts es d ih =>
    refine ⟨⟨_, rfl⟩, fun rest => ?_⟩
    obtain ⟨hparen, -, -⟩ := d.head_ne nofun (.mark ")" :: rest)
    rw [List.cons_append, List.append_assoc, parseArguments, dif_pos List.head?_cons]
    show Agrees _ (if (ts ++ Token.mark ")" :: rest).head? = some (.mark ")") then _ else _) _
    rw [if_neg hparen]
    exact (ih (.mark ")" :: rest) rfl (by simp)).closedBy
  | this | num | string | regexp =>
    exact ⟨_, rfl, fun m _ rest _ => .of_eq (parse_value rfl)⟩
  | name hx => exact ⟨_, rfl, fun m _ rest _ => .of_eq (parse_value (opening_name hx))⟩
  | atom hw => exact ⟨_, rfl, fun m _ rest _ => .of_eq (parse_value (opening_atom _ hw))⟩
  | @array ts es _ ih =>
    refine ⟨_, rfl, fun m _ rest _ => ?_⟩
    rw [List.cons_append, List.append_assoc, parse, show opening (.mark "[") = .bracket from rfl]
    exact (ih (.mark "]" :: rest) rfl).closedBy.goOn (length_lt_append_cons _ _ _) (.of_eq rfl)
  | @parens ts e _ ih =>
    obtain ⟨es, ⟨rfl⟩, ih⟩ := ih
    refine ⟨_, rfl, fun m _ rest _ => ?_⟩
    rw [List.cons_append, List.append_assoc, parse, show opening (.mark "(") = .paren from rfl]
    exact (ih (.mark ")" :: rest) rfl (by simp)).closedBy.goOn (length_lt_append_cons _ _ _)
      (.of_eq rfl)
  | @opened t ts n ht ho =>
    refine ⟨_, rfl, fun m _ rest _ => .inr ⟨⟨_, _, ho⟩, ?_⟩⟩
    rw [List.cons_append, parse]
    rcases ht with rfl | rfl <;> rfl
  | noElements =>
    intro rest hrest
    rw [List.nil_append, parseElements, if_pos hrest]
    exact .of_eq rfl
  | @lastElement ts e d ih =>
    obtain ⟨_, ⟨rfl⟩, ih⟩ := ih
    intro rest hrest
    obtain ⟨-, hbracket, hcomma⟩ := d.head_ne nofun rest
    have hlevel : headLevel rest = 0 := headLevel_bracket hrest
    rw [parseElements, if_neg hbracket, dif_neg hcomma]
    refine (ih.operand rest (Nat.le_refl 1) (Nat.le_of_eq hlevel) (by omega)).goOn
      (length_lt_append _ _) ?_
    exact .of_eq (dif_neg (by simp [hrest]))
  | @hole ts es _ ih =>
    intro rest hrest
    rw [List.cons_append, parseElements, if_neg (by simp), dif_pos List.head?_cons]
    exact (ih rest hrest).map _
  | @element ts us e es d _ ih ih' =>
    obtain ⟨_, ⟨rfl⟩, ih⟩ := ih
    intro rest hrest
    obtain ⟨-, hbracket, hcomma⟩ := d.head_ne nofun (.mark "," :: (us ++ rest))
    rw [List.append_assoc, List.cons_append, parseElements, if_neg hbracket, dif_neg hcomma]
    refine (ih.operand (.mark "," :: (us ++ rest)) (Nat.le_refl 1) (Nat.le_refl 0)
      Nat.zero_lt_one).goOn (length_lt_append _ _) ?_
    rw [dif_pos List.head?_cons]
    exact (ih' rest hrest).map _

/-- What is derived without a construct that stays open is the only thing derived. -/
theorem derives_unique {e e' : Node} (h : Derives (fun _ _ => False) .expression ts [e])
    (h' : Derives opens .expression ts [e']) : e' = e := by
  obtain ⟨es, he, hread⟩ := h.read
  obtain ⟨es', he', hread'⟩ := h'.read
  have hes : parseAll (ts ++ []) = some (es, []) := (hread [] rfl nofun).eq (by simp)
  rcases hread' [] rfl nofun with h | ⟨-, h⟩
  · cases hes.symm.trans h
    cases he
    cases he'
    rfl
  · cases hes.symm.trans h

end Resumable.Reading
