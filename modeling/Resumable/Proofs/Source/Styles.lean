/-
  Resumable.Proofs.Source.Styles — one layout, written in two ways.

  The printer does not know of styles: it lays a tree out once, and a style says what a break of the
  layout is written as.  So the lines of the layout (`Layout.pieces`) are the same in every style,
  and where there is no layout there is the same failure.

  A line ends where the layout has a break, and nowhere else, unless a text that is written as it is
  holds a newline (`spellings`).  The induction is over the printer, one lemma for each list that it
  recurses into (`form_unbroken`); literals and keys escape their newlines.

  Main statement: `render_same_pieces`.
-/
import Resumable.Proofs.Sorts.Gaps
import Resumable.Source.Printer

namespace Resumable

/-! ## §1. What is written as it is. -/

/-- The texts of a node that are written as they are: names, labels, numbers, words, operators and
    regular expressions.  Strings and the keys of properties are written as literals. -/
def Node.spellings : Node → List String
  | name x | num x | atom x => [x]
  | regexp p fl => [p, fl]
  | binary op _ _ | unary _ op _ | assign op _ _ => [op]
  | dot _ f => [f]
  | function f ps _ | defun f ps _ => f :: ps
  | var ds | const ds => ds.map (·.1)
  | breakTo l | continueTo l | label l _ => [l]
  | tryCatch _ h _ => (h.map (·.1)).toList
  | _ => []

/-- No text of a node that is written as it is goes over more than one line. -/
def Node.OnOneLine (n : Node) : Prop := ∀ s ∈ n.spellings, '\n' ∉ s.toList

instance (n : Node) : Decidable n.OnOneLine :=
  inferInstanceAs (Decidable (∀ s ∈ n.spellings, '\n' ∉ s.toList))

theorem Node.OnOneLine.only {n : Node} {s : String} (h : n.OnOneLine) (hs : n.spellings = [s]) :
    '\n' ∉ s.toList :=
  h s (hs ▸ List.mem_cons_self)

/-- What a computation gives, if it gives something, has a property. -/
def Gives {α : Type} (P : α → Prop) (x : Except Failure α) : Prop := ∀ a, x = .ok a → P a

namespace Gives

variable {α β : Type} {P : α → Prop} {Q : β → Prop} {x : Except Failure α}

theorem pure {a : α} (h : P a) : Gives P (Pure.pure a) := by
  rintro _ ⟨⟩
  exact h

theorem error {e : Failure} : Gives P (.error e) := nofun

theorem bind {f : α → Except Failure β} (h : Gives P x) (hf : ∀ a, P a → Gives Q (f a)) :
    Gives Q (x >>= f) := by
  cases x with
  | error e => exact error
  | ok a => exact hf a (h a rfl)

theorem map {f : α → β} (h : Gives P x) (hf : ∀ a, P a → Q (f a)) : Gives Q (f <$> x) := by
  cases x with
  | error e => exact error
  | ok a => exact pure (hf a (h a rfl))

end Gives

namespace Source

open Layout (ofText)
open Node (Throughout throughout_iff OnOneLine forall_one forall_two forall_three forall_four
  forall_list forall_fields forall_applied forall_tryCatch forall_switch)

/-! ## §2. The lines of a layout. -/

/-- The lines of a layout: the first one, and each further one with its depth. -/
def Layout.pieces : Layout → String × List (Nat × String)
  | [] => ("", [])
  | .text s :: l => (s ++ (pieces l).1, (pieces l).2)
  | .line depth :: l => ("", (depth, (pieces l).1) :: (pieces l).2)

/-- Compactly, the lines stand one behind the other with a space between them. -/
theorem write_compact (indent : String) (l : Layout) :
    Style.write { indent, compact := true } l =
      " ".intercalate (l.pieces.1 :: l.pieces.2.map (·.2)) := by
  induction l with
  | nil => rfl
  | cons p l ih =>
    cases p with
    | text s => rw [Style.write, ih, Layout.pieces, String.intercalate_cons_append]; rfl
    | line depth =>
      rw [Style.write, ih, Layout.pieces, List.map_cons, String.intercalate_cons_cons,
        String.empty_append]
      rfl

theorem margin_eq (st : Style) (depth : Nat) :
    st.margin depth = String.join (List.replicate depth st.indent) := by
  induction depth with
  | zero => rfl
  | succ depth ih => rw [Style.margin, ih, List.replicate_succ, String.join_cons]

/-- Indented, each further line stands behind a newline and as many indents as its depth. -/
theorem write_indented (indent : String) (l : Layout) :
    Style.write { indent, compact := false } l = l.pieces.1 ++ String.join (l.pieces.2.map
      fun line => "\n" ++ String.join (List.replicate line.1 indent) ++ line.2) := by
  induction l with
  | nil => rfl
  | cons p l ih =>
    cases p with
    | text s => rw [Style.write, ih, Layout.pieces, String.append_assoc]; rfl
    | line depth =>
      rw [Style.write, ih, Layout.pieces, List.map_cons, String.join_cons, String.empty_append,
        ← String.append_assoc]
      rw [← margin_eq { indent, compact := false }]
      rfl

/-! ## §3. Layouts without newlines of their own. -/

/-- No text of a layout has a newline in it. -/
def Unbroken (l : Layout) : Prop := ∀ s, Piece.text s ∈ l → '\n' ∉ s.toList

section

variable {s : String} {depth : Nat} {l l' : Layout} {ls : List Layout}

@[simp] theorem unbroken_nil : Unbroken [] := fun _ h => absurd h List.not_mem_nil

@[simp] theorem unbroken_text : Unbroken (ofText s) ↔ '\n' ∉ s.toList := by
  simp [Unbroken, ofText]

@[simp] theorem unbroken_append : Unbroken (l ++ l') ↔ Unbroken l ∧ Unbroken l' := by
  simp only [Unbroken, List.mem_append, or_imp, forall_and]

@[simp] theorem unbroken_line : Unbroken (.line depth :: l) ↔ Unbroken l := by
  simp [Unbroken]

@[simp] theorem unbroken_parens : Unbroken l.parens ↔ Unbroken l := by
  simp [Layout.parens]

theorem unbroken_joined (hs : '\n' ∉ s.toList) (h : ∀ l ∈ ls, Unbroken l) :
    Unbroken (Layout.joined s ls) := by
  induction ls with
  | nil => exact unbroken_nil
  | cons l ls ih =>
    obtain ⟨hl, hls⟩ := List.forall_mem_cons.mp h
    cases ls with
    | nil => exact hl
    | cons l' ls =>
      rw [Layout.joined]
      · simp only [unbroken_append, unbroken_text]
        exact ⟨⟨hl, hs⟩, ih hls⟩
      · exact nofun

theorem unbroken_lines (h : ∀ l ∈ ls, Unbroken l) : Unbroken (Layout.lines depth ls) := by
  induction ls with
  | nil => exact unbroken_nil
  | cons l ls ih =>
    obtain ⟨hl, hls⟩ := List.forall_mem_cons.mp h
    cases ls with
    | nil => exact hl
    | cons l' ls =>
      rw [Layout.lines]
      · simp only [unbroken_append, unbroken_line, unbroken_nil]
        exact ⟨⟨hl, trivial⟩, ih hls⟩
      · exact nofun

theorem unbroken_hanging (h : ∀ l ∈ ls, Unbroken l) : Unbroken (Layout.hanging depth ls) := by
  induction ls with
  | nil => exact unbroken_nil
  | cons l ls ih =>
    obtain ⟨hl, hls⟩ := List.forall_mem_cons.mp h
    rw [Layout.hanging, List.cons_append, unbroken_line, unbroken_append]
    exact ⟨hl, ih hls⟩

theorem unbroken_braced (h : ∀ l ∈ ls, Unbroken l) : Unbroken (Layout.braced depth ls) := by
  unfold Layout.braced
  split
  · simp
  · simp [unbroken_hanging h]

end

/-- The only characters of a literal are those of its escapes and of the string, which has its
    newlines escaped. -/
theorem newline_not_mem_literalChar (c : Char) : '\n' ∉ literalChar c := by
  have hdigit : ∀ d < 16, Text.hexDigit d ≠ '\n' := by decide
  have hsmall (m : Nat) : m % 16 < 16 := Nat.mod_lt m (by decide)
  unfold literalChar
  split
  iterate 7 decide
  · next hline _ _ _ _ =>
    split
    · simp [Text.hexPadded, (hdigit _ (hsmall _)).symm]
    · exact fun h => hline (List.mem_singleton.mp h).symm

theorem newline_not_mem_quote (s : String) : '\n' ∉ (quote s).toList := by
  simp [quote, newline_not_mem_literalChar]

theorem newline_not_mem_key (s : String) : '\n' ∉ (key s).toList := by
  unfold key
  split
  · next h =>
    have hchar : isIdentifierChar '\n' = false := by decide
    intro hmem
    unfold isIdentifier at h
    cases hs : s.toList with
    | nil => simp [hs] at hmem
    | cons c cs =>
      rw [hs] at h hmem
      simp only [Bool.and_eq_true, List.all_eq_true] at h
      rcases List.mem_cons.mp hmem with rfl | hmem
      · simp [hchar] at h
      · exact absurd (h.2 _ hmem) (by simp [hchar])
  · exact newline_not_mem_quote s

/-! ## §4. What the printer lays out. -/

section

variable {n : Node} {depth least : Nat} {form : Except Failure Layout}

theorem asOperand_unbroken (h : Gives Unbroken form) : Gives Unbroken (asOperand least n form) := by
  unfold asOperand
  split
  · refine .bind h fun l hl => .pure ?_
    split
    · exact unbroken_parens.mpr hl
    · exact hl
  · exact .error

theorem asStatement_unbroken (h : Gives Unbroken form) : Gives Unbroken (asStatement n form) := by
  have hends : Gives Unbroken (do return (← form) ++ ofText ";") :=
    .bind h fun l hl => .pure (unbroken_append.mpr ⟨hl, by simp⟩)
  unfold asStatement
  split
  · exact .error
  · exact hends
  · exact hends
  · split
    · exact hends
    · exact h

theorem asOptional_unbroken (h : Gives Unbroken form) : Gives Unbroken (asOptional n form) := by
  unfold asOptional
  split
  · exact .pure unbroken_nil
  · exact asOperand_unbroken h

theorem asHeader_unbroken (h : Gives Unbroken form) : Gives Unbroken (asHeader n form) := by
  unfold asHeader
  split
  · exact .pure unbroken_nil
  · exact h
  · exact asOperand_unbroken h

theorem unbroken_jump {word label : String} (hw : '\n' ∉ word.toList) (hl : '\n' ∉ label.toList) :
    Unbroken (jump word label) := by
  unfold jump
  split <;> simp [hw, hl]

theorem newline_not_mem_intercalate (sep : String) {ss : List String} (hsep : '\n' ∉ sep.toList)
    (h : ∀ s ∈ ss, '\n' ∉ s.toList) : '\n' ∉ (sep.intercalate ss).toList := by
  induction ss with
  | nil => simp
  | cons s ss ih =>
    obtain ⟨hs, hss⟩ := List.forall_mem_cons.mp h
    cases ss with
    | nil => simpa using hs
    | cons s' ss =>
      rw [String.intercalate_cons_cons]
      simpa [hs, hsep] using ih hss

theorem unbroken_functionHead {name : String} {params : List String}
    (h : ∀ s ∈ name :: params, '\n' ∉ s.toList) : Unbroken (functionHead name params) := by
  obtain ⟨hname, hparams⟩ := List.forall_mem_cons.mp h
  have hlist := newline_not_mem_intercalate ", " (by decide) hparams
  unfold functionHead
  split <;> simp [hname, hlist, -String.toList_intercalate]

end

mutual

/-- The layout of a tree whose texts are on one line breaks nowhere else. -/
theorem form_unbroken (depth : Nat) (asBody : Bool) (n : Node) (h : Throughout OnOneLine n) :
    Gives Unbroken (form depth asBody n) := by
  cases n with
  | absent =>
    rw [form]
    exact .pure unbroken_nil
  | name x | num x | atom x =>
    obtain ⟨hx, -⟩ := (throughout_iff rfl).mp h
    rw [form]
    exact .pure (unbroken_text.mpr (hx.only rfl))
  | string s =>
    rw [form]
    exact .pure (unbroken_text.mpr (newline_not_mem_quote s))
  | regexp p fl =>
    obtain ⟨hroot, -⟩ := (throughout_iff rfl).mp h
    have hp : '\n' ∉ p.toList := hroot p (by simp [Node.spellings])
    have hfl : '\n' ∉ fl.toList := hroot fl (by simp [Node.spellings])
    rw [form]
    exact .pure (by simp [hp, hfl])
  | array es | seq es =>
    obtain ⟨-, hes⟩ := (throughout_iff rfl).mp h
    rw [form]
    refine .bind (operands_unbroken depth es ((forall_list rfl).mp hes)) fun ls hls => .pure ?_
    simp [unbroken_joined _ hls]
  | object ps =>
    obtain ⟨-, hps⟩ := (throughout_iff rfl).mp h
    rw [form]
    refine .bind (properties_unbroken depth ps ((forall_fields rfl).mp hps)) fun ls hls => .pure ?_
    split <;> simp [unbroken_joined _ hls]
  | call c as =>
    obtain ⟨-, hparts⟩ := (throughout_iff rfl).mp h
    obtain ⟨hc, has⟩ := (forall_applied rfl).mp hparts
    rw [form]
    refine .bind (asOperand_unbroken (form_unbroken depth false c hc)) fun callee hcallee =>
      .bind (operands_unbroken depth as has) fun ls hls => .pure ?_
    split <;> simp [unbroken_joined _ hls, hcallee]
  | new c as =>
    obtain ⟨-, hparts⟩ := (throughout_iff rfl).mp h
    obtain ⟨hc, has⟩ := (forall_applied rfl).mp hparts
    rw [form]
    refine .bind (asOperand_unbroken (form_unbroken depth false c hc)) fun callee hcallee =>
      .bind (operands_unbroken depth as has) fun ls hls => .pure ?_
    simp [unbroken_joined _ hls, hcallee]
  | binary op l r | assign op l r =>
    obtain ⟨hop, hparts⟩ := (throughout_iff rfl).mp h
    obtain ⟨hl, hr⟩ := (forall_two rfl).mp hparts
    have hop : '\n' ∉ op.toList := hop.only rfl
    rw [form]
    refine .bind (asOperand_unbroken (form_unbroken depth false l hl)) fun left hleft =>
      .bind (asOperand_unbroken (form_unbroken depth false r hr)) fun right hright => .pure ?_
    simp [hop, hleft, hright]
  | unary side op e =>
    obtain ⟨hroot, hparts⟩ := (throughout_iff rfl).mp h
    have he := (forall_one rfl).mp hparts
    have hop : '\n' ∉ op.toList := hroot.only rfl
    cases side
    all_goals
      rw [form]
      refine .bind (asOperand_unbroken (form_unbroken depth false e he)) fun operand ho => .pure ?_
    · split <;> simp [hop, ho]
    · simp [hop, ho]
  | dot b f =>
    obtain ⟨hf, hparts⟩ := (throughout_iff rfl).mp h
    have hb := (forall_one rfl).mp hparts
    have hf : '\n' ∉ f.toList := hf.only rfl
    rw [form]
    refine .bind (asOperand_unbroken (form_unbroken depth false b hb)) fun base hbase => .pure ?_
    split <;> simp [hf, hbase]
  | sub b i =>
    obtain ⟨-, hparts⟩ := (throughout_iff rfl).mp h
    obtain ⟨hb, hi⟩ := (forall_two rfl).mp hparts
    rw [form]
    refine .bind (asOperand_unbroken (form_unbroken depth false b hb)) fun base hbase =>
      .bind (asOperand_unbroken (form_unbroken depth false i hi)) fun index hindex => .pure ?_
    simp [hbase, hindex]
  | conditional t y e =>
    obtain ⟨-, hparts⟩ := (throughout_iff rfl).mp h
    obtain ⟨ht, hy, he⟩ := (forall_three rfl).mp hparts
    rw [form]
    refine .bind (asOperand_unbroken (form_unbroken depth false t ht)) fun test htest =>
      .bind (asOperand_unbroken (form_unbroken depth false y hy)) fun yes hyes =>
      .bind (asOperand_unbroken (form_unbroken depth false e he)) fun no hno => .pure ?_
    simp [htest, hyes, hno]
  | function f ps b | defun f ps b =>
    obtain ⟨hnames, hb⟩ := (throughout_iff rfl).mp h
    rw [form]
    refine .bind (statements_unbroken (depth + 1) b ((forall_list rfl).mp hb)) fun ls hls =>
      .pure ?_
    exact unbroken_append.mpr ⟨unbroken_functionHead hnames, unbroken_braced hls⟩
  | stat e =>
    obtain ⟨-, hparts⟩ := (throughout_iff rfl).mp h
    have he := (forall_one rfl).mp hparts
    rw [form]
    refine .bind (asOperand_unbroken (form_unbroken depth false e he)) fun l hl => .pure ?_
    split <;> simp [hl]
  | var ds | const ds =>
    obtain ⟨hnames, hparts⟩ := (throughout_iff rfl).mp h
    have hnames := List.forall_mem_map.mp hnames
    rw [form]
    refine .bind (bindings_unbroken depth ds hnames ((forall_fields rfl).mp hparts)) fun ls hls =>
      .pure ?_
    simp [unbroken_joined _ hls]
  | block b =>
    obtain ⟨-, hb⟩ := (throughout_iff rfl).mp h
    rw [form]
    exact .bind (statements_unbroken (depth + 1) b ((forall_list rfl).mp hb)) fun ls hls =>
      .pure (unbroken_braced hls)
  | toplevel b =>
    obtain ⟨-, hb⟩ := (throughout_iff rfl).mp h
    rw [form]
    exact .bind (statements_unbroken depth b ((forall_list rfl).mp hb)) fun ls hls =>
      .pure (unbroken_lines hls)
  | splice ns =>
    obtain ⟨-, hns⟩ := (throughout_iff rfl).mp h
    have hns := (forall_list rfl).mp hns
    rw [form]
    split
    · exact .bind (statements_unbroken (depth + 1) ns hns) fun ls hls => .pure (unbroken_braced hls)
    · exact .bind (statements_unbroken depth ns hns) fun ls hls => .pure (unbroken_lines hls)
  | ifElse c y e =>
    obtain ⟨-, hparts⟩ := (throughout_iff rfl).mp h
    obtain ⟨hc, hy, he⟩ := (forall_three rfl).mp hparts
    rw [form]
    refine .bind (asOperand_unbroken (form_unbroken depth false c hc)) fun cond hcond => ?_
    have hrest : ∀ yes, Unbroken yes → Gives Unbroken (do
        let no ←
          if e.isAbsent then .ok []
          else (ofText " else " ++ ·) <$> asStatement e (form depth true e)
        return ofText "if (" ++ cond ++ ofText ") " ++ yes ++ no) := by
      intro yes hyes
      have hends : ∀ no, Unbroken no →
          Gives Unbroken (pure (ofText "if (" ++ cond ++ ofText ") " ++ yes ++ no)) :=
        fun no hno => .pure (by simp [hcond, hyes, hno])
      dsimp only
      split
      · exact .bind (.pure unbroken_nil) hends
      · refine .bind (.map (asStatement_unbroken (form_unbroken depth true e he)) fun l hl => ?_)
          hends
        simp [hl]
    dsimp only
    split
    · refine .bind (.map (asStatement_unbroken (form_unbroken (depth + 1) false y hy))
        fun l hl => ?_) hrest
      exact unbroken_braced (List.forall_mem_singleton.mpr hl)
    · exact .bind (asStatement_unbroken (form_unbroken depth true y hy)) hrest
  | forLoop i c s b =>
    obtain ⟨-, hparts⟩ := (throughout_iff rfl).mp h
    obtain ⟨hi, hc, hs, hb⟩ := (forall_four rfl).mp hparts
    rw [form]
    refine .bind (asHeader_unbroken (form_unbroken depth false i hi)) fun init hinit =>
      .bind (asOptional_unbroken (form_unbroken depth false c hc)) fun cond hcond =>
      .bind (asOptional_unbroken (form_unbroken depth false s hs)) fun step hstep =>
      .bind (asStatement_unbroken (form_unbroken depth true b hb)) fun body hbody => .pure ?_
    simp [hinit, hcond, hstep, hbody]
  | forIn i o b =>
    obtain ⟨-, hparts⟩ := (throughout_iff rfl).mp h
    obtain ⟨hi, ho, hb⟩ := (forall_three rfl).mp hparts
    have hinit := form_unbroken depth false i hi
    have hrest : ∀ init, Unbroken init → Gives Unbroken (do
        let object ← asOperand Precedence.lowest o (form depth false o)
        let body ← asStatement b (form depth true b)
        return ofText "for (" ++ init ++ ofText " in " ++ object ++ ofText ") " ++ body) := by
      intro init hinit
      refine .bind (asOperand_unbroken (form_unbroken depth false o ho)) fun object hobject =>
        .bind (asStatement_unbroken (form_unbroken depth true b hb)) fun body hbody => .pure ?_
      simp [hinit, hobject, hbody]
    cases i with
    | var ds =>
      rw [form]
      exact .bind hinit hrest
    | _ =>
      rw [form]
      · exact .bind (asOperand_unbroken hinit) hrest
      · exact nofun
  | whileLoop c b | withObject c b =>
    obtain ⟨-, hparts⟩ := (throughout_iff rfl).mp h
    obtain ⟨hc, hb⟩ := (forall_two rfl).mp hparts
    rw [form]
    refine .bind (asOperand_unbroken (form_unbroken depth false c hc)) fun cond hcond =>
      .bind (asStatement_unbroken (form_unbroken depth true b hb)) fun body hbody => .pure ?_
    simp [hcond, hbody]
  | doLoop c b =>
    obtain ⟨-, hparts⟩ := (throughout_iff rfl).mp h
    obtain ⟨hb, hc⟩ := (forall_two rfl).mp hparts
    rw [form]
    refine .bind (asStatement_unbroken (form_unbroken depth true b hb)) fun body hbody =>
      .bind (asOperand_unbroken (form_unbroken depth false c hc)) fun cond hcond => .pure ?_
    simp [hcond, hbody]
  | breakTo l | continueTo l =>
    obtain ⟨hl, -⟩ := (throughout_iff rfl).mp h
    rw [form]
    exact .pure (unbroken_jump (by decide) (hl.only rfl))
  | debugger =>
    rw [form]
    exact .pure (unbroken_text.mpr (by decide))
  | label l b =>
    obtain ⟨hl, hparts⟩ := (throughout_iff rfl).mp h
    have hb := (forall_one rfl).mp hparts
    have hl : '\n' ∉ l.toList := hl.only rfl
    rw [form]
    refine .bind (asStatement_unbroken (form_unbroken depth false b hb)) fun body hbody => .pure ?_
    simp [hl, hbody]
  | ret v =>
    obtain ⟨-, hparts⟩ := (throughout_iff rfl).mp h
    have hv := (forall_one rfl).mp hparts
    rw [form]
    split
    · exact .pure (unbroken_text.mpr (by decide))
    · refine .bind (asOperand_unbroken (form_unbroken depth false v hv)) fun value hvalue =>
        .pure ?_
      simp [hvalue]
  | throw v =>
    obtain ⟨-, hparts⟩ := (throughout_iff rfl).mp h
    have hv := (forall_one rfl).mp hparts
    rw [form]
    refine .bind (asOperand_unbroken (form_unbroken depth false v hv)) fun value hvalue => .pure ?_
    simp [hvalue]
  | tryCatch b hd f =>
    obtain ⟨hroot, hparts⟩ := (throughout_iff rfl).mp h
    obtain ⟨hb, hhd, hf⟩ := forall_tryCatch.mp hparts
    have hnames : ∀ c ∈ hd, '\n' ∉ c.1.toList := by
      rintro c rfl
      exact hroot.only rfl
    rw [form]
    refine .bind (statements_unbroken (depth + 1) b hb) fun body hbody =>
      .bind (catchClause_unbroken depth hd hnames hhd) fun handler hhandler =>
      .bind (finallyClause_unbroken depth f hf) fun finalizer hfinalizer => .pure ?_
    simp [unbroken_braced hbody, hhandler, hfinalizer]
  | switch d cs =>
    obtain ⟨-, hparts⟩ := (throughout_iff rfl).mp h
    obtain ⟨hd, hcs⟩ := forall_switch.mp hparts
    rw [form]
    refine .bind (asOperand_unbroken (form_unbroken depth false d hd)) fun disc hdisc =>
      .bind (switchClauses_unbroken (depth + 1) cs hcs) fun clauses hclauses => .pure ?_
    simp [hdisc, hclauses]
termination_by structural n

theorem operands_unbroken (depth : Nat) (ns : List Node) (h : ∀ n ∈ ns, Throughout OnOneLine n) :
    Gives (∀ l ∈ ·, Unbroken l) (operands depth ns) := by
  cases ns with
  | nil =>
    rw [operands]
    exact .pure (List.forall_mem_nil _)
  | cons n ns =>
    obtain ⟨hn, hns⟩ := List.forall_mem_cons.mp h
    rw [operands]
    exact .bind (asOperand_unbroken (form_unbroken depth false n hn)) fun first hfirst =>
      .bind (operands_unbroken depth ns hns) fun ls hls =>
      .pure (List.forall_mem_cons.mpr ⟨hfirst, hls⟩)
termination_by structural ns

theorem properties_unbroken (depth : Nat) (ps : List (String × Node))
    (h : ∀ p ∈ ps, Throughout OnOneLine p.2) :
    Gives (∀ l ∈ ·, Unbroken l) (properties depth ps) := by
  cases ps with
  | nil =>
    rw [properties]
    exact .pure (List.forall_mem_nil _)
  | cons p ps =>
    obtain ⟨hn, hps⟩ := List.forall_mem_cons.mp h
    obtain ⟨k, n⟩ := p
    rw [properties]
    refine .bind (asOperand_unbroken (form_unbroken depth false n hn)) fun value hvalue =>
      .bind (properties_unbroken depth ps hps) fun ls hls =>
      .pure (List.forall_mem_cons.mpr ⟨?_, hls⟩)
    simp [newline_not_mem_key, hvalue]
termination_by structural ps

theorem bindings_unbroken (depth : Nat) (ds : List (String × Node))
    (hnames : ∀ d ∈ ds, '\n' ∉ d.1.toList) (h : ∀ d ∈ ds, Throughout OnOneLine d.2) :
    Gives (∀ l ∈ ·, Unbroken l) (bindings depth ds) := by
  cases ds with
  | nil =>
    rw [bindings]
    exact .pure (List.forall_mem_nil _)
  | cons d ds =>
    obtain ⟨hx, hxs⟩ := List.forall_mem_cons.mp hnames
    obtain ⟨hn, hds⟩ := List.forall_mem_cons.mp h
    obtain ⟨x, n⟩ := d
    rw [bindings]
    have hrest : ∀ first, Unbroken first →
        Gives (∀ l ∈ ·, Unbroken l) (do return first :: (← bindings depth ds)) :=
      fun first hfirst => .bind (bindings_unbroken depth ds hxs hds) fun ls hls =>
        .pure (List.forall_mem_cons.mpr ⟨hfirst, hls⟩)
    dsimp only
    split
    · exact .bind (.pure (unbroken_text.mpr hx)) hrest
    · refine .bind (.map (asOperand_unbroken (form_unbroken depth false n hn)) fun l hl => ?_) hrest
      simp [hx, hl]
termination_by structural ds

theorem statements_unbroken (depth : Nat) (ns : List Node)
    (h : ∀ n ∈ ns, Throughout OnOneLine n) : Gives (∀ l ∈ ·, Unbroken l) (statements depth ns) := by
  cases ns with
  | nil =>
    rw [statements]
    exact .pure (List.forall_mem_nil _)
  | cons n ns =>
    obtain ⟨hn, hns⟩ := List.forall_mem_cons.mp h
    have hrest := statements_unbroken depth ns hns
    cases n with
    | absent =>
      rw [statements]
      exact hrest
    | splice ms =>
      obtain ⟨-, hms⟩ := (throughout_iff rfl).mp hn
      rw [statements]
      exact .bind (statements_unbroken depth ms ((forall_list rfl).mp hms)) fun first hfirst =>
        .bind hrest fun ls hls => .pure (List.forall_mem_append.mpr ⟨hfirst, hls⟩)
    | _ =>
      rw [statements]
      · exact .bind (asStatement_unbroken (form_unbroken depth false _ hn)) fun first hfirst =>
          .bind hrest fun ls hls => .pure (List.forall_mem_cons.mpr ⟨hfirst, hls⟩)
      all_goals exact nofun
termination_by structural ns

theorem catchClause_unbroken (depth : Nat) (handler : Option (String × List Node))
    (hnames : ∀ c ∈ handler, '\n' ∉ c.1.toList)
    (h : ∀ c ∈ handler, ∀ n ∈ c.2, Throughout OnOneLine n) :
    Gives Unbroken (catchClause depth handler) := by
  cases handler with
  | none =>
    rw [catchClause]
    exact .pure unbroken_nil
  | some c =>
    obtain ⟨x, body⟩ := c
    have hx : '\n' ∉ x.toList := hnames _ rfl
    rw [catchClause]
    refine .bind (statements_unbroken (depth + 1) body (h _ rfl)) fun ls hls => .pure ?_
    simp [hx, unbroken_braced hls]
termination_by structural handler

theorem finallyClause_unbroken (depth : Nat) (finalizer : Option (List Node))
    (h : ∀ f ∈ finalizer, ∀ n ∈ f, Throughout OnOneLine n) :
    Gives Unbroken (finallyClause depth finalizer) := by
  cases finalizer with
  | none =>
    rw [finallyClause]
    exact .pure unbroken_nil
  | some body =>
    rw [finallyClause]
    refine .bind (statements_unbroken (depth + 1) body (h _ rfl)) fun ls hls => .pure ?_
    simp [unbroken_braced hls]
termination_by structural finalizer

theorem switchClauses_unbroken (depth : Nat) (cs : List (Node × List Node))
    (h : ∀ c ∈ cs, Throughout OnOneLine c.1 ∧ ∀ n ∈ c.2, Throughout OnOneLine n) :
    Gives Unbroken (switchClauses depth cs) := by
  cases cs with
  | nil =>
    rw [switchClauses]
    exact .pure unbroken_nil
  | cons c cs =>
    obtain ⟨⟨ht, hbody⟩, hcs⟩ := List.forall_mem_cons.mp h
    obtain ⟨t, body⟩ := c
    rw [switchClauses]
    have hrest : ∀ head, Unbroken head → Gives Unbroken (do
        let items ← statements (depth + 1) body
        let others ← switchClauses depth cs
        return .line depth :: head ++ Layout.hanging (depth + 1) items ++ others) := by
      intro head hhead
      refine .bind (statements_unbroken (depth + 1) body hbody) fun ls hls =>
        .bind (switchClauses_unbroken depth cs hcs) fun others hothers => .pure ?_
      simp [hhead, unbroken_hanging hls, hothers]
    dsimp only
    split
    · exact .bind (.pure (unbroken_text.mpr (by decide))) hrest
    · refine .bind (.map (asOperand_unbroken (form_unbroken depth false t ht)) fun l hl => ?_) hrest
      simp [hl]
termination_by structural cs

end

/-! ## §5. Two styles. -/

theorem layout_unbroken {n : Node} (h : Throughout OnOneLine n) : Gives Unbroken (layout n) := by
  unfold layout
  split
  · exact .error
  · split
    · exact form_unbroken 0 false n h
    · exact .bind (statements_unbroken 0 [n] (List.forall_mem_singleton.mpr h)) fun _ hls =>
        .pure (unbroken_lines hls)

/-- A layout without newlines of its own is written on one line if it is written compactly. -/
theorem newline_not_mem_write {indent : String} {l : Layout} (h : Unbroken l) :
    '\n' ∉ (Style.write { indent, compact := true } l).toList := by
  induction l with
  | nil => simp [Style.write]
  | cons p l ih =>
    have hl : Unbroken l := fun s hs => h s (List.mem_cons_of_mem _ hs)
    rw [Style.write, String.toList_append, List.mem_append, not_or]
    refine ⟨?_, ih hl⟩
    cases p with
    | text s => exact h s List.mem_cons_self
    | line depth => simp [Style.piece]

/-- A tree is refused in every style with the same failure, or it has the same lines in every
    style: compactly they stand one behind the other with a space between them, and indented each
    one but the first stands behind a newline and as many indents as it is deep.  Compactly there is
    no newline at all, unless a text has one that is written as it is. -/
theorem render_same_pieces (n : Node) :
    ((∃ e, ∀ st, render st n = .error e) ∨
      ∃ (first : String) (others : List (Nat × String)), ∀ indent,
        render { indent, compact := true } n = .ok (" ".intercalate (first :: others.map (·.2))) ∧
        render { indent, compact := false } n = .ok (first ++ String.join (others.map fun line =>
          "\n" ++ String.join (List.replicate line.1 indent) ++ line.2))) ∧
    (Throughout OnOneLine n → ∀ indent text,
      render { indent, compact := true } n = .ok text → '\n' ∉ text.toList) := by
  unfold render
  refine ⟨?_, fun h indent text htext => ?_⟩
  · cases layout n with
    | error e => exact .inl ⟨e, fun st => rfl⟩
    | ok l =>
      refine .inr ⟨l.pieces.1, l.pieces.2, fun indent => ⟨?_, ?_⟩⟩
      · exact congrArg Except.ok (write_compact indent l)
      · exact congrArg Except.ok (write_indented indent l)
  · have hwritten : Gives (fun s => '\n' ∉ s.toList)
        (do return Style.write { indent, compact := true } (← layout n)) :=
      .bind (layout_unbroken h) fun l hl => .pure (newline_not_mem_write hl)
    exact hwritten text htext

/-- A function whose body has a string with a newline in it, on one line and on three. -/
theorem render_same_pieces_of_function :
    let n : Node := .function "f" ["x"] [.ret (.call (.name "x") [.string "a\nb"])]
    render { indent := "\t", compact := true } n =
        .ok "function f(x) \x7b return x(\"a\\nb\"); \x7d" ∧
      render { indent := "\t", compact := false } n =
        .ok "function f(x) \x7b\n\treturn x(\"a\\nb\");\n\x7d" ∧
      Throughout OnOneLine n ∧ '\n' ∉ "function f(x) \x7b return x(\"a\\nb\"); \x7d".toList := by
  intro n
  have hcompact : render { indent := "\t", compact := true } n =
      .ok "function f(x) \x7b return x(\"a\\nb\"); \x7d" := by rfl
  have hn : Throughout OnOneLine n := by
    unfold Throughout
    decide
  exact ⟨hcompact, by rfl, hn, (render_same_pieces n).2 hn "\t" _ hcompact⟩

end Source

end Resumable
