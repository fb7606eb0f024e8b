/-
  Resumable.Proofs.Source.ReadBack — a printed expression is read back.

  `Readable` is the fragment: every expression without functions, object literals, constructors and
  regular expressions.  Without a constructor no argument list goes to another node than its own,
  and so what the text of an expression is read as is the expression.

  Main statement: `render_reads_back`.
-/
import Resumable.Proofs.Source.Constructors

namespace Resumable.Reading

open Source (Style)

/-! ## §1. Expressions that can be read back. -/

/-- An expression without functions, objects, constructors and regular expressions, whose names and
    numbers are such. -/
inductive Readable : Node → Prop
  | name {x : String} (h : isName x = true) (hfree : x ∉ reservedWords) : Readable (.name x)
  | num {x : String} (h : isInteger x = true) : Readable (.num x)
  | string (s : String) : Readable (.string s)
  | atom {w : String} (h : w ∈ literalWords) : Readable (.atom w)
  | array {es : List Node} (h : ∀ e ∈ es, Readable e) : Readable (.array es)
  | call {c : Node} {args : List Node} (hc : Readable c) (hargs : ∀ e ∈ args, Readable e) :
      Readable (.call c args)
  | dot {b : Node} {f : String} (hb : Readable b) (hf : isName f = true) : Readable (.dot b f)
  | sub {b i : Node} (hb : Readable b) (hi : Readable i) : Readable (.sub b i)
  | binary {op : String} {l r : Node} (hop : op ∈ tiers.flatten) (hl : Readable l)
      (hr : Readable r) : Readable (.binary op l r)
  /-- An increment or a decrement needs something to assign to. -/
  | before {op : String} {e : Node} (hop : op ∈ operatorsBefore)
      (hplace : op ∈ operatorsAfter → isPlace e = true) (he : Readable e) :
      Readable (.unary .before op e)
  | after {op : String} {e : Node} (hop : op ∈ operatorsAfter) (hplace : isPlace e = true)
      (he : Readable e) : Readable (.unary .after op e)
  | assign {op : String} {t v : Node} (hop : op ∈ assignments) (hplace : isPlace t = true)
      (ht : Readable t) (hv : Readable v) : Readable (.assign op t v)
  | conditional {t y n : Node} (ht : Readable t) (hy : Readable y) (hn : Readable n) :
      Readable (.conditional t y n)
  | seq {es : List Node} (hlength : 2 ≤ es.length) (h : ∀ e ∈ es, Readable e) :
      Readable (.seq es)

section

variable {e : Node} {es : List Node}

theorem Readable.legible (h : Readable e) : Legible e := by
  induction h with
  | name h hfree => exact .name h hfree
  | num h => exact .num h
  | string s => exact .string s
  | atom h => exact .atom h
  | array _ ih => exact .array ih
  | call _ _ ih ih' => exact .call ih ih'
  | dot _ hf ih => exact .dot ih hf
  | sub _ _ ih ih' => exact .sub ih ih'
  | binary hop _ _ ih ih' => exact .binary hop ih ih'
  | before hop hplace _ ih => exact .before hop hplace ih
  | after hop hplace _ ih => exact .after hop hplace ih
  | assign hop hplace _ _ ih ih' => exact .assign hop hplace ih ih'
  | conditional _ _ _ ih ih' ih'' => exact .conditional ih ih' ih''
  | seq hlength _ ih => exact .seq hlength ih

theorem readAll_readable (h : ∀ e ∈ es, readBehind 0 e = e) : readAll es = es := by
  rw [readAll_eq, List.map_congr_left h, List.map_id']

/-- Without constructors an expression is read as itself. -/
theorem Readable.readBehind_eq (h : Readable e) : readBehind 0 e = e := by
  induction h with
  | name | num | string | atom => rfl
  | array _ ih | seq _ _ ih => rw [readBehind, readAll_readable ih]
  | call _ _ ih ih' => rw [readBehind, if_pos (Nat.zero_le _), ih, readAll_readable ih']
  | dot _ _ ih | before _ _ _ ih | after _ _ _ ih => rw [readBehind, ih]
  | sub _ _ ih ih' | binary _ _ _ ih ih' | assign _ _ _ _ ih ih' => rw [readBehind, ih, ih']
  | conditional _ _ _ ih ih' ih'' => rw [readBehind, ih, ih', ih'']

end

/-! ## §2. Texts. -/

/-- An expression of the fragment has a text in every style, and the text is read as the expression
    and as nothing else, whatever functions and object literals are read as. -/
theorem render_reads_back (e : Node) (h : Readable e) (st : Style)
    (opens : List Token → Node → Prop) :
    ∃ text, Source.render st e = .ok text ∧ ∀ e', Reads opens text e' ↔ e' = e := by
  obtain ⟨text, htext, hreads⟩ := h.legible.reads st opens
  rw [h.readBehind_eq] at hreads
  exact ⟨text, htext, hreads⟩

/-- A sign in front of a sign, a point behind a number, a sequence as an argument, and an assigned
    conditional. -/
theorem render_reads_back_signs :
    let e : Node := .assign "+" (.sub (.name "x") (.num "0"))
      (.conditional (.binary "*" (.unary .before "-" (.unary .before "-" (.name "y")))
          (.call (.dot (.num "1") "f") [.name "a", .seq [.name "b", .string "q"]]))
        (.array []) (.unary .after "++" (.name "b")))
    let text := "x[0] += - -y * (1).f(a, (b, \"q\")) ? [] : b++"
    Readable e ∧ Source.render {} e = .ok text ∧
      ∀ e', Reads (fun _ _ => False) text e' ↔ e' = e := by
  intro e text
  have hname (x : String) (h : isName x = true) (hfree : x ∉ reservedWords) : Readable (.name x) :=
    .name h hfree
  have hb : Readable (.name "b") := hname "b" (by decide) (by decide)
  have hsigns : Readable (.unary .before "-" (.unary .before "-" (.name "y"))) :=
    .before (by decide) (by decide) (.before (by decide) (by decide)
      (hname "y" (by decide) (by decide)))
  have hseq : Readable (.seq [.name "b", .string "q"]) :=
    .seq (by decide) (List.forall_mem_cons.mpr ⟨hb, List.forall_mem_singleton.mpr (.string "q")⟩)
  have hargs : ∀ n ∈ [Node.name "a", .seq [.name "b", .string "q"]], Readable n :=
    List.forall_mem_cons.mpr ⟨hname "a" (by decide) (by decide), List.forall_mem_singleton.mpr hseq⟩
  have hcall : Readable (.call (.dot (.num "1") "f") [.name "a", .seq [.name "b", .string "q"]]) :=
    .call (.dot (.num (by decide)) (by decide)) hargs
  have htest := Readable.binary (by decide : "*" ∈ tiers.flatten) hsigns hcall
  have htarget : Readable (.sub (.name "x") (.num "0")) :=
    .sub (hname "x" (by decide) (by decide)) (.num (by decide))
  have he : Readable e :=
    .assign (by decide) rfl htarget (.conditional htest (.array (List.forall_mem_nil _))
      (.after (by decide) rfl hb))
  obtain ⟨text', htext', hreads⟩ := render_reads_back e he {} fun _ _ => False
  have htext : Source.render {} e = .ok text := rfl
  obtain rfl : text' = text := Except.ok.inj (htext'.symm.trans htext)
  exact ⟨he, htext, hreads⟩

end Resumable.Reading
