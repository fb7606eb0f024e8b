/-
  Resumable.Proofs.Source.Else — which `if` an `else` belongs to.

  `Takes` is the grammar of the fragment: an `if` has no `else` only if none follows it, so that an
  `else` goes to the nearest `if` without one.  A list of tokens is read in one way
  (`Takes.unique`), and the tokens of a statement in which no `else` stands behind an open `if` are
  read as the statement (`takes_wording`).

  So the text of any statement of the fragment is read as `attached` says, for that is such a
  statement and has the same text.

  Main statement: `render_attaches_else`.
-/
import Resumable.Proofs.Source.Nearest

namespace Resumable.Reading

open Source (Layout Style)
open Source.Layout (ofText)
open Node (Throughout throughout_iff forall_two forall_three forall_four forall_list)

/-! ## §1. How the tokens of a statement are read. -/

/-- A part of a loop header, up to a mark. -/
inductive TakesPart (m : String) : List Token → Node → List Token → Prop
  | none {ts : List Token} : TakesPart m (.mark m :: ts) .absent ts
  | some {x : String} {ts : List Token} (h : x ∉ reservedWords) :
      TakesPart m (.word x :: .mark m :: ts) (.name x) ts

/-- What is taken off a list of tokens. -/
inductive Extent where
  | statement
  /-- The statements up to the end of the block that they stand in. -/
  | body
  deriving DecidableEq, Repr

/-- How statements are taken off a list of tokens, and what is left of it. -/
inductive Takes : Extent → List Token → List Node → List Token → Prop
  | stat {x : String} {ts : List Token} (h : x ∉ reservedWords) :
      Takes .statement (.word x :: .mark ";" :: ts) [.stat (.name x)] ts
  | block {ts us : List Token} {ns : List Node} (body : Takes .body ts ns us) :
      Takes .statement (.mark "\x7b" :: ts) [.block ns] us
  /-- An `else` that follows belongs to the `if` in front of it. -/
  | ifOnly {c : String} {y : Node} {ts us : List Token} (hc : c ∉ reservedWords)
      (yes : Takes .statement ts [y] us) (h : us.head? ≠ some (.word "else")) :
      Takes .statement (.word "if" :: .mark "(" :: .word c :: .mark ")" :: ts)
        [.ifElse (.name c) y .absent] us
  | ifElse {c : String} {y n : Node} {ts us ws : List Token} (hc : c ∉ reservedWords)
      (yes : Takes .statement ts [y] (.word "else" :: us)) (no : Takes .statement us [n] ws) :
      Takes .statement (.word "if" :: .mark "(" :: .word c :: .mark ")" :: ts)
        [.ifElse (.name c) y n] ws
  | forLoop {i c s b : Node} {ts us vs ws rest : List Token} (hi : TakesPart ";" ts i us)
      (hc : TakesPart ";" us c vs) (hs : TakesPart ")" vs s ws)
      (body : Takes .statement ws [b] rest) :
      Takes .statement (.word "for" :: .mark "(" :: ts) [.forLoop i c s b] rest
  | forIn {i o : String} {b : Node} {ts us : List Token} (hi : i ∉ reservedWords)
      (ho : o ∉ reservedWords) (body : Takes .statement ts [b] us) :
      Takes .statement (.word "for" :: .mark "(" :: .word i :: .word "in" :: .word o ::
        .mark ")" :: ts) [.forIn (.name i) (.name o) b] us
  | whileLoop {c : String} {b : Node} {ts us : List Token} (hc : c ∉ reservedWords)
      (body : Takes .statement ts [b] us) :
      Takes .statement (.word "while" :: .mark "(" :: .word c :: .mark ")" :: ts)
        [.whileLoop (.name c) b] us
  | withObject {o : String} {b : Node} {ts us : List Token} (ho : o ∉ reservedWords)
      (body : Takes .statement ts [b] us) :
      Takes .statement (.word "with" :: .mark "(" :: .word o :: .mark ")" :: ts)
        [.withObject (.name o) b] us
  | stop {ts : List Token} : Takes .body (.mark "\x7d" :: ts) [] ts
  | next {ts us ws : List Token} {n : Node} {ns : List Node} (first : Takes .statement ts [n] us)
      (others : Takes .body us ns ws) : Takes .body ts (n :: ns) ws

/-- A text is read as a statement. -/
def ReadsStatement (text : String) (t : Node) : Prop :=
  ∃ ts, Scans text.toList ts ∧ Takes .statement ts [t] []

section

variable {m : String} {g : Extent} {ts ts' us us' : List Token} {n n' : Node} {ns ns' : List Node}
  {cs : List Char}

theorem Scans.unique (h : Scans cs ts) (h' : Scans cs us) : ts = us := by
  induction h generalizing us with
  | done =>
    cases h' with
    | done => rfl
    | blank hs => cases hs
    | token hs => cases hs
  | blank hs _ ih =>
    cases h' with
    | done => cases hs
    | blank hs' others' =>
      cases hs.symm.trans hs'
      exact ih others'
    | token hs' => cases hs.symm.trans hs'
  | token hs _ ih =>
    cases h' with
    | done => cases hs
    | blank hs' => cases hs.symm.trans hs'
    | token hs' others' =>
      cases hs.symm.trans hs'
      rw [ih others']

theorem TakesPart.unique (h : TakesPart m ts n us) (h' : TakesPart m ts' n' us') (ht : ts = ts') :
    n = n' ∧ us = us' := by
  cases h with
  | none =>
    cases h' with
    | none => exact ⟨rfl, (List.cons.inj ht).2⟩
    | some => simp at ht
  | some =>
    cases h' with
    | none => simp at ht
    | some =>
      cases ht
      exact ⟨rfl, rfl⟩

/-- A block ends where no statement starts. -/
theorem Takes.head_ne (h : Takes .statement ts ns us) : ts.head? ≠ some (.mark "\x7d") := by
  cases h <;> simp

/-- A header is no header of a loop over the names of an object. -/
theorem TakesPart.not_in (h : TakesPart ";" ts n us) {i : String} {rest : List Token} :
    ts ≠ .word i :: .word "in" :: rest := by
  cases h <;> simp

/-- A list of tokens is read in one way. -/
theorem Takes.unique (h : Takes g ts ns us) (h' : Takes g ts' ns' us') (ht : ts = ts') :
    ns = ns' ∧ us = us' := by
  induction h generalizing ts' ns' us' with
  | stat =>
    cases h' with
    | stat =>
      cases ht
      exact ⟨rfl, rfl⟩
    | _ => simp at ht
  | block _ ih =>
    cases h' with
    | block body =>
      obtain ⟨rfl, rfl⟩ := ih body (List.cons.inj ht).2
      exact ⟨rfl, rfl⟩
    | _ => simp at ht
  | ifOnly _ _ h ih =>
    cases h' with
    | ifOnly _ yes _ =>
      cases ht
      obtain ⟨⟨⟩, rfl⟩ := ih yes rfl
      exact ⟨rfl, rfl⟩
    | ifElse _ yes _ =>
      cases ht
      obtain ⟨-, rfl⟩ := ih yes rfl
      exact absurd rfl h
    | _ => simp at ht
  | ifElse _ _ _ ih ih' =>
    cases h' with
    | ifOnly _ yes h =>
      cases ht
      obtain ⟨-, rfl⟩ := ih yes rfl
      exact absurd rfl h
    | ifElse _ yes no =>
      cases ht
      obtain ⟨⟨⟩, ⟨⟩⟩ := ih yes rfl
      obtain ⟨⟨⟩, rfl⟩ := ih' no rfl
      exact ⟨rfl, rfl⟩
    | _ => simp at ht
  | forLoop hi hc hs _ ih =>
    cases h' with
    | forLoop hi' hc' hs' body =>
      obtain ⟨rfl, rfl⟩ := hi.unique hi' (List.cons.inj (List.cons.inj ht).2).2
      obtain ⟨rfl, rfl⟩ := hc.unique hc' rfl
      obtain ⟨rfl, rfl⟩ := hs.unique hs' rfl
      obtain ⟨⟨⟩, rfl⟩ := ih body rfl
      exact ⟨rfl, rfl⟩
    | forIn => exact absurd (List.cons.inj (List.cons.inj ht).2).2 hi.not_in
    | _ => simp at ht
  | forIn _ _ _ ih =>
    cases h' with
    | forLoop hi' => exact absurd (List.cons.inj (List.cons.inj ht).2).2.symm hi'.not_in
    | forIn _ _ body =>
      cases ht
      obtain ⟨⟨⟩, rfl⟩ := ih body rfl
      exact ⟨rfl, rfl⟩
    | _ => simp at ht
  | whileLoop _ _ ih =>
    cases h' with
    | whileLoop _ body =>
      cases ht
      obtain ⟨⟨⟩, rfl⟩ := ih body rfl
      exact ⟨rfl, rfl⟩
    | _ => simp at ht
  | withObject _ _ ih =>
    cases h' with
    | withObject _ body =>
      cases ht
      obtain ⟨⟨⟩, rfl⟩ := ih body rfl
      exact ⟨rfl, rfl⟩
    | _ => simp at ht
  | stop =>
    cases h' with
    | stop => exact ⟨rfl, (List.cons.inj ht).2⟩
    | next first => exact absurd (ht ▸ rfl) first.head_ne
  | next first _ ih ih' =>
    cases h' with
    | stop => exact absurd (ht ▸ rfl) first.head_ne
    | next first others =>
      obtain ⟨⟨⟩, rfl⟩ := ih first ht
      obtain ⟨rfl, rfl⟩ := ih' others rfl
      exact ⟨rfl, rfl⟩

end

/-! ## §2. The tokens of a statement. -/

/-- The token of an identifier, or none. -/
def nameTokens : Node → List Token
  | .name x => [.word x]
  | _ => []

mutual

/-- The tokens of a statement. -/
def wording : Node → List Token
  | .stat e => nameTokens e ++ [.mark ";"]
  | .block ns => [.mark "\x7b"] ++ wordingAll ns ++ [.mark "\x7d"]
  | .ifElse c y n =>
    [.word "if", .mark "("] ++ nameTokens c ++ [.mark ")"] ++ wording y ++
      (if n.isAbsent then [] else .word "else" :: wording n)
  | .forLoop i c s b =>
    [.word "for", .mark "("] ++ nameTokens i ++ [.mark ";"] ++ nameTokens c ++ [.mark ";"] ++
      nameTokens s ++ [.mark ")"] ++ wording b
  | .forIn i o b =>
    [.word "for", .mark "("] ++ nameTokens i ++ [.word "in"] ++ nameTokens o ++ [.mark ")"] ++
      wording b
  | .whileLoop c b => [.word "while", .mark "("] ++ nameTokens c ++ [.mark ")"] ++ wording b
  | .withObject o b => [.word "with", .mark "("] ++ nameTokens o ++ [.mark ")"] ++ wording b
  | _ => []

/-- The tokens of the statements of a block. -/
def wordingAll : List Node → List Token
  | [] => []
  | n :: ns => wording n ++ wordingAll ns

end

section

variable {t c y n e : Node} {ns : List Node} {rest : List Token}

theorem wording_ifElse (he : e.isAbsent = false) : wording (.ifElse c y e) =
    [.word "if", .mark "("] ++ nameTokens c ++ [.mark ")"] ++ wording y ++
      .word "else" :: wording e := by
  rw [wording, he]
  rfl

/-- No statement starts with `else`. -/
theorem wording_head (h : Plain t) : (wording t ++ rest).head? ≠ some (.word "else") := by
  have helse : "else" ∈ reservedWords := by decide
  cases h with
  | stat h =>
    rintro ⟨⟩
    exact h.free helse
  | _ => simp [wording]

theorem IsPart.takes {m : String} (h : IsPart n) :
    TakesPart m (nameTokens n ++ .mark m :: rest) n rest := by
  cases h with
  | none => exact .none
  | some h => exact .some h.free

/-- The statements of a block are taken off their tokens. -/
theorem takes_body (h : ∀ n ∈ ns, Plain n)
    (htakes : ∀ n ∈ ns, ∀ rest : List Token, rest.head? ≠ some (.word "else") →
      Takes .statement (wording n ++ rest) [n] rest) :
    Takes .body (wordingAll ns ++ .mark "\x7d" :: rest) ns rest := by
  induction ns with
  | nil => exact .stop
  | cons n ns ih =>
    obtain ⟨-, hns⟩ := List.forall_mem_cons.mp h
    obtain ⟨hfirst, hothers⟩ := List.forall_mem_cons.mp htakes
    rw [wordingAll, List.append_assoc]
    refine .next (hfirst _ ?_) (ih hns hothers)
    -- behind a statement stands another one, or the end of the block
    cases ns with
    | nil => exact fun h => by cases h
    | cons m ns =>
      rw [wordingAll, List.append_assoc]
      exact wording_head (hns m List.mem_cons_self)

/-- A statement in which no `else` stands behind an open `if` is taken off its tokens, if it does
    not end with an open `if` itself or if no `else` follows. -/
theorem takes_wording (h : Plain t) (hclosed : Throughout Closed t)
    (hrest : endsOpen t = true → rest.head? ≠ some (.word "else")) :
    Takes .statement (wording t ++ rest) [t] rest := by
  induction h generalizing rest with
  | stat h => exact .stat h.free
  | block h ih =>
    obtain ⟨-, hparts⟩ := (throughout_iff rfl).mp hclosed
    have hns := (forall_list rfl).mp hparts
    rw [wording, List.append_assoc, List.append_assoc]
    exact .block (takes_body h fun n hn rest hrest => ih n hn (hns n hn) fun _ => hrest)
  | ifOnly hc hy ih =>
    obtain ⟨-, hparts⟩ := (throughout_iff rfl).mp hclosed
    obtain ⟨-, hy', -⟩ := (forall_three rfl).mp hparts
    rw [wording, if_pos (by rfl), List.append_nil, List.append_assoc]
    exact .ifOnly hc.free (ih hy' fun _ => hrest rfl) (hrest rfl)
  | ifElse hc hy hn ihy ihn =>
    obtain ⟨hfree, hparts⟩ := (throughout_iff rfl).mp hclosed
    obtain ⟨-, hy', hn'⟩ := (forall_three rfl).mp hparts
    have hfree := hfree.resolve_left (by simp [hn.isAbsent])
    rw [endsOpen_ifElse hn.isAbsent] at hrest
    rw [wording_ifElse hn.isAbsent, List.append_assoc, List.append_assoc]
    exact .ifElse hc.free (ihy hy' fun ho => absurd ho (by simp [hfree])) (ihn hn' hrest)
  | forLoop hi hc hs hb ih =>
    obtain ⟨-, hparts⟩ := (throughout_iff rfl).mp hclosed
    obtain ⟨-, -, -, hb'⟩ := (forall_four rfl).mp hparts
    rw [wording]
    simp only [List.append_assoc, List.cons_append, List.nil_append]
    exact .forLoop hi.takes hc.takes hs.takes (ih hb' hrest)
  | forIn hi ho hb ih =>
    obtain ⟨-, hparts⟩ := (throughout_iff rfl).mp hclosed
    obtain ⟨-, -, hb'⟩ := (forall_three rfl).mp hparts
    rw [wording, List.append_assoc]
    exact .forIn hi.free ho.free (ih hb' hrest)
  | whileLoop hc hb ih =>
    obtain ⟨-, hparts⟩ := (throughout_iff rfl).mp hclosed
    obtain ⟨-, hb'⟩ := (forall_two rfl).mp hparts
    rw [wording, List.append_assoc]
    exact .whileLoop hc.free (ih hb' hrest)
  | withObject ho hb ih =>
    obtain ⟨-, hparts⟩ := (throughout_iff rfl).mp hclosed
    obtain ⟨-, hb'⟩ := (forall_two rfl).mp hparts
    rw [wording, List.append_assoc]
    exact .withObject ho.free (ih hb' hrest)

end

/-! ## §3. The text of a statement. -/

/-- A style that puts white space between the lines. -/
def Spaced (st : Style) : Prop :=
  st.compact = true ∨ ∀ c ∈ st.indent.toList, c = ' ' ∨ c = '\t'

/-- A layout is written in a style as text that is scanned as some tokens, in front of what may
    follow. -/
def Writes (st : Style) (ok : List Char → Prop) (l : Layout) (ts : List Token) : Prop :=
  ∀ rest us, ok rest → Scans rest us → Scans ((st.write l).toList ++ rest) (ts ++ us)

section

variable {st : Style} {ok ok' : List Char → Prop} {l l' : Layout} {ts ts' : List Token}

theorem Prints.writes {cs : List Char} (h : Prints ok l cs ts) (st : Style) :
    Writes st ok l ts := by
  intro rest us hr hs
  rw [h.spells.write st]
  exact h.scans rest us hr hs

theorem Writes.append (h : Writes st ok l ts) (h' : Writes st ok' l' ts')
    (hok : ∀ rest, ok' rest → ok ((st.write l').toList ++ rest)) :
    Writes st ok' (l ++ l') (ts ++ ts') := by
  intro rest us hr hs
  rw [write_append, String.toList_append, List.append_assoc, List.append_assoc]
  exact h _ _ (hok rest hr) (h' rest us hr hs)

/-- Behind text that may have anything behind it. -/
theorem Writes.then (h : Writes st (fun _ => True) l ts) (h' : Writes st ok l' ts') :
    Writes st ok (l ++ l') (ts ++ ts') :=
  h.append h' fun _ _ => trivial

/-- Text that starts with no character of a word ends a word in front of it. -/
theorem Writes.until {s : String} {c : Char} {cs : List Char}
    (h : Writes st (Ends inWord) l ts) (h' : Writes st ok (ofText s) ts')
    (hs : s.toList = c :: cs) (hc : inWord c = false) :
    Writes st ok (l ++ ofText s) (ts ++ ts') := by
  refine h.append h' fun rest _ => ?_
  rw [(Spells.text s).write st, hs]
  rintro d ⟨⟩
  exact hc

theorem scans_blanks {cs rest : List Char} {us : List Token}
    (h : ∀ c ∈ cs, c = ' ' ∨ c = '\t' ∨ c = '\n') (hs : Scans rest us) : Scans (cs ++ rest) us := by
  induction cs with
  | nil => exact hs
  | cons c cs ih =>
    obtain ⟨hc, hcs⟩ := List.forall_mem_cons.mp h
    refine .blank ?_ (ih hcs)
    rcases hc with rfl | rfl | rfl <;> rfl

theorem Spaced.margin (hst : ∀ c ∈ st.indent.toList, c = ' ' ∨ c = '\t') (depth : Nat) :
    ∀ c ∈ (st.margin depth).toList, c = ' ' ∨ c = '\t' := by
  induction depth with
  | zero => simp [Style.margin]
  | succ depth ih =>
    rw [Style.margin, String.toList_append]
    exact List.forall_mem_append.mpr ⟨hst, ih⟩

/-- A break between lines is white space. -/
theorem writes_line (hst : Spaced st) (depth : Nat) : Writes st ok [.line depth] [] := by
  intro rest us _ hs
  refine scans_blanks (fun c hc => ?_) hs
  rw [Style.write, Style.write, Style.piece, String.append_empty] at hc
  cases hcompact : st.compact with
  | true =>
    rw [hcompact, if_pos rfl] at hc
    exact .inl (List.mem_singleton.mp hc)
  | false =>
    rw [hcompact, if_neg Bool.false_ne_true, String.toList_append] at hc
    have hblank := Spaced.margin (hst.resolve_left (by simp [hcompact])) depth
    rcases List.mem_cons.mp hc with rfl | hc
    · exact .inr (.inr rfl)
    · rcases hblank c hc with h | h
      · exact .inl h
      · exact .inr (.inl h)

theorem writes_name {n : Node} (h : IsPart n) :
    Writes st (Ends inWord) (layName n) (nameTokens n) := by
  cases h with
  | none => exact fun rest us _ hs => hs
  | some h => exact (Prints.text fun rest hr => scan_name h.name hr).writes st

theorem writes_for : Writes st (fun _ => True) (ofText "for (") [.word "for", .mark "("] :=
  Prints.writes ⟨.text _, fun _ _ _ hs => .token rfl (.blank rfl (.token rfl hs))⟩ st

theorem writes_close : Writes st (fun _ => True) (ofText ") ") [.mark ")"] :=
  Prints.writes ⟨.text _, fun _ _ _ hs => .token rfl (.blank rfl hs)⟩ st

/-- A word, a parenthesis, and an identifier. -/
theorem writes_header {s : String} {n : Node} {ts : List Token} (h : IsPart n)
    (hs : Prints (fun _ => True) (ofText s) s.toList ts) :
    Writes st (fun _ => True) (ofText s ++ layName n ++ ofText ") ")
      (ts ++ nameTokens n ++ [.mark ")"]) :=
  ((hs.writes st).then (writes_name h)).until writes_close rfl rfl

theorem writes_hanging (hst : Spaced st) {depth : Nat} {ns : List Node}
    (h : ∀ n ∈ ns, Writes st (fun _ => True) (lay depth n) (wording n)) :
    Writes st (fun _ => True) (Layout.hanging depth (layAll depth ns)) (wordingAll ns) := by
  induction ns with
  | nil => exact fun rest us _ hs => hs
  | cons n ns ih =>
    obtain ⟨hn, hns⟩ := List.forall_mem_cons.mp h
    rw [layAll, wordingAll, Layout.hanging]
    exact ((writes_line hst depth).then hn).then (ih hns)

theorem writes_braced (hst : Spaced st) {depth : Nat} {ns : List Node}
    (h : ∀ n ∈ ns, Writes st (fun _ => True) (lay (depth + 1) n) (wording n)) :
    Writes st (fun _ => True) (Layout.braced depth (layAll (depth + 1) ns))
      (wording (.block ns)) := by
  have hopen : Writes st (fun _ => True) (ofText "\x7b") [.mark "\x7b"] :=
    (prints_mark _ fun _ => rfl).writes st
  have hclose : Writes st (fun _ => True) (ofText "\x7d") [.mark "\x7d"] :=
    (prints_mark _ fun _ => rfl).writes st
  rw [wording]
  cases ns with
  | nil =>
    have hboth : Prints (fun _ => True) (ofText "\x7b\x7d") "\x7b\x7d".toList
        [.mark "\x7b", .mark "\x7d"] := ⟨.text _, fun _ _ _ hs => .token rfl (.token rfl hs)⟩
    exact hboth.writes st
  | cons n ns =>
    have hall := ((hopen.then (writes_hanging hst h)).then (writes_line hst depth)).then hclose
    rw [List.append_nil] at hall
    exact hall

/-- The layout of a statement in which no `else` stands behind an open `if` is written as text that
    is scanned as the tokens of the statement. -/
theorem writes_lay (hst : Spaced st) {t : Node} (h : Plain t) (hclosed : Throughout Closed t)
    (depth : Nat) : Writes st (fun _ => True) (lay depth t) (wording t) := by
  induction h generalizing depth with
  | stat h =>
    have hmark : Writes st (fun _ => True) (ofText ";") [.mark ";"] :=
      (prints_mark _ fun _ => rfl).writes st
    exact (writes_name (.some h)).until hmark rfl rfl
  | block _ ih =>
    obtain ⟨-, hparts⟩ := (throughout_iff rfl).mp hclosed
    have hns := (forall_list rfl).mp hparts
    exact writes_braced hst fun n hn => ih n hn (hns n hn) (depth + 1)
  | ifOnly hc _ ih =>
    obtain ⟨-, hparts⟩ := (throughout_iff rfl).mp hclosed
    obtain ⟨-, hy, -⟩ := (forall_three rfl).mp hparts
    rw [lay_ifOnly, wording, if_pos (by rfl), List.append_nil]
    exact (writes_header (.some hc) ⟨.text _, fun _ _ _ hs =>
      .token rfl (.blank rfl (.token rfl hs))⟩).then (ih hy depth)
  | ifElse hc _ hn ihy ihn =>
    obtain ⟨hfree, hparts⟩ := (throughout_iff rfl).mp hclosed
    obtain ⟨-, hy, hn'⟩ := (forall_three rfl).mp hparts
    have hfree := capturesElse_eq_false (hfree.resolve_left (by simp [hn.isAbsent]))
    have helse : Prints (fun _ => True) (ofText " else ") " else ".toList [.word "else"] :=
      ⟨.text _, fun _ _ _ hs => .blank rfl (.token rfl (.blank rfl hs))⟩
    rw [lay_ifElse_free hn.isAbsent hfree, wording_ifElse hn.isAbsent,
      List.append_assoc _ (wording _)]
    exact (writes_header (.some hc) ⟨.text _, fun _ _ _ hs =>
      .token rfl (.blank rfl (.token rfl hs))⟩).then
        ((ihy hy depth).then ((helse.writes st).then (ihn hn' depth)))
  | forLoop hi hc hs _ ih =>
    obtain ⟨-, hparts⟩ := (throughout_iff rfl).mp hclosed
    obtain ⟨-, -, -, hb⟩ := (forall_four rfl).mp hparts
    have hsemicolon : Writes st (fun _ => True) (ofText "; ") [.mark ";"] :=
      Prints.writes ⟨.text _, fun _ _ _ hs => .token rfl (.blank rfl hs)⟩ st
    have hinit := (writes_for.then (writes_name hi)).until hsemicolon rfl rfl
    have hcond := (hinit.then (writes_name hc)).until hsemicolon rfl rfl
    have hstep := (hcond.then (writes_name hs)).until writes_close rfl rfl
    exact hstep.then (ih hb depth)
  | forIn hi ho _ ih =>
    obtain ⟨-, hparts⟩ := (throughout_iff rfl).mp hclosed
    obtain ⟨-, -, hb⟩ := (forall_three rfl).mp hparts
    have hin : Writes st (fun _ => True) (ofText " in ") [.word "in"] :=
      Prints.writes ⟨.text _, fun _ _ _ hs => .blank rfl (.token rfl (.blank rfl hs))⟩ st
    have hinit := (writes_for.then (writes_name (.some hi))).until hin rfl rfl
    have hobject := (hinit.then (writes_name (.some ho))).until writes_close rfl rfl
    exact hobject.then (ih hb depth)
  | whileLoop hc _ ih =>
    obtain ⟨-, hparts⟩ := (throughout_iff rfl).mp hclosed
    obtain ⟨-, hb⟩ := (forall_two rfl).mp hparts
    exact (writes_header (.some hc) ⟨.text _, fun _ _ _ hs =>
      .token rfl (.blank rfl (.token rfl hs))⟩).then (ih hb depth)
  | withObject ho _ ih =>
    obtain ⟨-, hparts⟩ := (throughout_iff rfl).mp hclosed
    obtain ⟨-, hb⟩ := (forall_two rfl).mp hparts
    exact (writes_header (.some ho) ⟨.text _, fun _ _ _ hs =>
      .token rfl (.blank rfl (.token rfl hs))⟩).then (ih hb depth)

end

/-! ## §4. Where each `else` goes. -/

section

variable {st : Style} {t t' : Node}

theorem layout_plain (h : Plain t) : Source.layout t = .ok (lay 0 t) := by
  have hexpression : t.isExpression = false := by
    cases h <;> rfl
  have hitems : Source.statements 0 [t] = .ok [lay 0 t] :=
    statements_plain (List.forall_mem_singleton.mpr h)
      (List.forall_mem_singleton.mpr (form_plain h 0 false))
  rw [Source.layout, h.isAbsent, hexpression, hitems]
  rfl

/-- A statement has the text of what it is read as. -/
theorem render_attached (st : Style) (h : Plain t) :
    Source.render st (attached t) = Source.render st t := by
  rw [Source.render, Source.render, layout_plain h, layout_plain (plain_attached h),
    lay_attached h 0]

/-- The text of a statement is read as `attached` says, and as nothing else. -/
theorem reads_attached (hst : Spaced st) (h : Plain t) :
    ∃ text, Source.render st t = .ok text ∧ ∀ t', ReadsStatement text t' ↔ t' = attached t := by
  have hscans : Scans (st.write (lay 0 t)).toList (wording (attached t)) := by
    have hall := writes_lay hst (plain_attached h) (closed_attached h) 0 [] [] trivial .done
    rwa [List.append_nil, List.append_nil, lay_attached h] at hall
  have htakes : Takes .statement (wording (attached t)) [attached t] [] := by
    have hall : Takes .statement (wording (attached t) ++ []) [attached t] [] :=
      takes_wording (plain_attached h) (closed_attached h) fun _ => nofun
    rwa [List.append_nil] at hall
  refine ⟨st.write (lay 0 t), by rw [Source.render, layout_plain h]; rfl, fun t' => ⟨?_, ?_⟩⟩
  · rintro ⟨ts, hts, ht'⟩
    obtain rfl := hts.unique hscans
    obtain ⟨⟨⟩, -⟩ := ht'.unique htakes rfl
    rfl
  · rintro rfl
    exact ⟨_, hscans, htakes⟩

/-- The text of a statement is read with each `else` at the nearest `if` without one, as `attached`
    has it.  That is the statement itself, up to blocks of one statement, if and only if the printer
    guards each `else`: where it does not, some `if` has an `else` in the text but not in the tree,
    or the other way round, and `attached` gives another tree with the same text.  So among the
    statements in which each `else` is guarded a text stands for one tree. -/
theorem render_attaches_else (st : Style) (hst : Spaced st) :
    (∀ t, Plain t → ∃ text, Source.render st t = .ok text ∧
      (∀ t', ReadsStatement text t' ↔ t' = attached t) ∧
      Plain (attached t) ∧ Source.render st (attached t) = .ok text ∧
      (elses (attached t) = elses t ↔ Throughout Guarded t) ∧
      (unwrapped (attached t) = unwrapped t ↔ Throughout Guarded t)) ∧
    ∀ t t', Plain t → Plain t' → Throughout Guarded t → Throughout Guarded t' →
      Source.render st t = Source.render st t' → unwrapped t = unwrapped t' := by
  have hread {t t' : Node} (h : Plain t) (h' : Plain t')
      (hsame : Source.render st t = Source.render st t') : attached t = attached t' := by
    obtain ⟨text, htext, hreads⟩ := reads_attached hst h
    obtain ⟨text', htext', hreads'⟩ := reads_attached hst h'
    rw [htext, htext', Except.ok.injEq] at hsame
    exact (hreads' _).mp (hsame ▸ (hreads _).mpr rfl)
  constructor
  · intro t h
    obtain ⟨text, htext, hreads⟩ := reads_attached hst h
    have hforward (hsame : unwrapped (attached t) = unwrapped t) :
        elses (attached t) = elses t := by
      rw [← (elses_unwrapped (plain_attached h)).1, hsame, (elses_unwrapped h).1]
    refine ⟨text, htext, hreads, plain_attached h, render_attached st h ▸ htext, ?_, ?_⟩
    · exact ⟨guarded_of_elses h, fun hg => hforward (unwrapped_attached h hg).1⟩
    · exact ⟨fun hsame => guarded_of_elses h (hforward hsame),
        fun hg => (unwrapped_attached h hg).1⟩
  · intro t t' h h' hg hg' hsame
    rw [← (unwrapped_attached h hg).1, ← (unwrapped_attached h' hg').1, hread h h' hsame]

end

/-- An `if` that is guarded, and the same with a block in the tree. -/
theorem render_attaches_else_of_block :
    let inner : Node := .ifElse (.name "b") (.stat (.name "x")) .absent
    let t : Node := .ifElse (.name "a") inner (.stat (.name "y"))
    let t' : Node := .ifElse (.name "a") (.block [inner]) (.stat (.name "y"))
    Spaced {} ∧ Plain t ∧ Plain t' ∧ Throughout Guarded t ∧ Throughout Guarded t' ∧
      Source.render {} t = .ok "if (a) \x7b\n    if (b) x;\n\x7d else y;" ∧
      Source.render {} t = Source.render {} t' ∧ unwrapped t = unwrapped t' := by
  intro inner t t'
  have hname (x : String) (h : isName x = true) (hfree : x ∉ reservedWords) : IsIdentifier x :=
    ⟨h, hfree⟩
  have ha := hname "a" (by decide) (by decide)
  have hy : Plain (.stat (.name "y")) := .stat (hname "y" (by decide) (by decide))
  have hinner : Plain inner :=
    .ifOnly (hname "b" (by decide) (by decide)) (.stat (hname "x" (by decide) (by decide)))
  have ht : Plain t := .ifElse ha hinner hy
  have ht' : Plain t' := .ifElse ha (.block (List.forall_mem_singleton.mpr hinner)) hy
  have hg : Throughout Guarded t := guarded_of_elses ht rfl
  have hg' : Throughout Guarded t' := guarded_of_elses ht' rfl
  have hst : Spaced {} := .inr (by simp)
  have hsame : Source.render {} t = Source.render {} t' := rfl
  exact ⟨hst, ht, ht', hg, hg', rfl, hsame,
    (render_attaches_else {} hst).2 t t' ht ht' hg hg' hsame⟩

/-- Two statements with one text: the `if` in the loop takes the `else` of the one around it. -/
theorem render_moves_else :
    let x : Node := .stat (.name "x")
    let y : Node := .stat (.name "y")
    let outer : Node :=
      .ifElse (.name "a") (.whileLoop (.name "b") (.ifElse (.name "c") x .absent)) y
    let inner : Node :=
      .ifElse (.name "a") (.whileLoop (.name "b") (.ifElse (.name "c") x y)) .absent
    let text := "if (a) while (b) if (c) x; else y;"
    Plain outer ∧ Plain inner ∧ Source.render .oneLine outer = .ok text ∧
      Source.render .oneLine inner = .ok text ∧ unwrapped outer ≠ unwrapped inner ∧
      ReadsStatement text inner ∧ ¬ ReadsStatement text outer := by
  intro x y outer inner text
  have hname (x : String) (h : isName x = true) (hfree : x ∉ reservedWords) : IsIdentifier x :=
    ⟨h, hfree⟩
  have ha := hname "a" (by decide) (by decide)
  have hb := hname "b" (by decide) (by decide)
  have hc := hname "c" (by decide) (by decide)
  have hx : Plain x := .stat (hname "x" (by decide) (by decide))
  have hy : Plain y := .stat (hname "y" (by decide) (by decide))
  have houter : Plain outer := .ifElse ha (.whileLoop hb (.ifOnly hc hx)) hy
  have hinner : Plain inner := .ifOnly ha (.whileLoop hb (.ifElse hc hx hy))
  have hst : Spaced .oneLine := .inl rfl
  obtain ⟨text', htext', hreads⟩ := reads_attached hst houter
  have htext : Source.render .oneLine outer = .ok text := rfl
  obtain rfl : text' = text := Except.ok.inj (htext'.symm.trans htext)
  have hne : outer ≠ inner := by
    intro h
    injection h with _ _ h
    exact absurd (show Node.stat (.name "y") = .absent from h) nofun
  refine ⟨houter, hinner, htext, rfl, hne, (hreads inner).mpr rfl, fun h => hne ?_⟩
  exact (hreads outer).mp h

end Resumable.Reading
