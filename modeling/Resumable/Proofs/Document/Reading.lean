/-
  Resumable.Proofs.Document.Reading — what a reading comes to.

  A reading gives a tree, fails with a report of its phase, or goes on for ever.  `Reads` says all
  three of a step at once: which property its value has, and under which condition it may be
  endless.  It is closed under the steps that the decoder is put together from, so there is one
  lemma for each sort of operand and one for a node (`decodeStep_reads`).

  A step hands nodes inside its own to the reader of operands, and no others.  `Inside` is that
  relation; it follows aliases as the decoder does.

  Main statement: `complete_of_parse`.  What a document is read as is complete.
-/
import Resumable.Proofs.Sorts.Gaps
import Resumable.Tree.Document

namespace Resumable

/-- A report on the reading of a tree. -/
def Failure.OfParse (e : Failure) : Prop := ∃ r cause, e = .report r cause ∧ r.phase = .parse

namespace Yaml.Document

/-- What a node of a document has among its items, behind an alias as well. -/
def Inside (doc : Document) (m n : Node) : Prop :=
  ∃ tag items line, doc.follow n = .sequence tag items line ∧ m ∈ items

/-- Whether a text holds a document with a property. -/
def parses (bytes : Bytes) (p : Document → Bool) : Bool :=
  match parse bytes with
  | .ok (some doc) => p doc
  | _ => false

theorem exists_of_parses {bytes : Bytes} {p : Document → Bool} (h : parses bytes p = true) :
    ∃ doc, parse bytes = .ok (some doc) ∧ p doc = true := by
  unfold parses at h
  split at h
  · next doc hdoc => exact ⟨doc, hdoc, h⟩
  · cases h

end Yaml.Document

namespace Tree

open Node (substantial complete_one complete_two complete_three complete_four complete_list
  complete_fields complete_applied complete_tryCatch complete_switch fills_optional_iff)

/-! ## §1. Steps. -/

/-- A reading has a value with a property, fails with a report of its phase, or has no end where
    it may have none. -/
inductive Reads {α : Type} (endless : Prop) (P : α → Prop) : Decode α → Prop
  | ok {a : α} (h : P a) : Reads endless P (some (.ok a))
  | failed {e : Failure} (h : e.OfParse) : Reads endless P (some (.error e))
  | endless (h : endless) : Reads endless P none

namespace Reads

variable {α β : Type} {E : Prop} {P : α → Prop} {Q : β → Prop}

theorem pure {a : α} (h : P a) : Reads E P (Pure.pure a) := .ok h

theorem bind {x : Decode α} {f : α → Decode β} (h : Reads E P x) (hf : ∀ a, P a → Reads E Q (f a)) :
    Reads E Q (x >>= f) := by
  cases h with
  | ok ha => exact hf _ ha
  | failed he => exact .failed he
  | endless hE => exact .endless hE

theorem mono {x : Decode α} {P' : α → Prop} (h : Reads E P x) (hP : ∀ a, P a → P' a) :
    Reads E P' x := by
  cases h with
  | ok ha => exact .ok (hP _ ha)
  | failed he => exact .failed he
  | endless hE => exact .endless hE

/-- Readings one after the other give as many values. -/
theorem mapM {f : α → Decode β} {xs : List α} (h : ∀ a ∈ xs, Reads E Q (f a)) :
    Reads E (fun bs => bs.length = xs.length ∧ ∀ b ∈ bs, Q b) (xs.mapM f) := by
  induction xs with
  | nil => exact .pure ⟨rfl, List.forall_mem_nil _⟩
  | cons a xs ih =>
    obtain ⟨ha, hxs⟩ := List.forall_mem_cons.mp h
    rw [List.mapM_cons]
    refine .bind ha fun b hb => .bind (ih hxs) fun bs hbs => .pure ?_
    exact ⟨congrArg (· + 1) hbs.1, List.forall_mem_cons.mpr ⟨hb, hbs.2⟩⟩

theorem malformed {path : Path} {node detail : String} :
    Reads E P (Tree.malformed path node detail) := .failed ⟨_, _, rfl, rfl⟩

end Reads

/-! ## §2. Operands. -/

section

variable {doc : Yaml.Document} {child : NodeReader} {E : Prop} {below : Yaml.Node → Prop}
  {path : Path} {what : String} {n : Yaml.Node} {operand : Option Yaml.Node}

theorem scalar_reads : Reads E (fun _ => True) (scalar doc path what n) := by
  unfold scalar
  split
  · exact .pure trivial
  · exact .malformed

theorem optionalScalar_reads : Reads E (fun _ => True) (optionalScalar doc path what operand) := by
  unfold optionalScalar
  split
  · exact .pure trivial
  · split
    · exact .pure trivial
    · exact scalar_reads

theorem assignOperator_reads : Reads E (fun _ => True) (assignOperator doc path n) := by
  have hoperator : Reads E (fun _ => True) (do
      let s ← scalar doc path "assign" n
      return if s.endsWith "=" then (s.dropEnd 1).toString else s) :=
    .bind scalar_reads fun _ _ => .pure trivial
  unfold assignOperator
  split
  · split
    · split
      · exact .pure trivial
      · exact .malformed
    · exact hoperator
  · exact hoperator

/-- What is inside a node of the documents that are looked at is one of them as well. -/
def Closed (doc : Yaml.Document) (below : Yaml.Node → Prop) : Prop :=
  ∀ m n, doc.Inside m n → below n → below m

theorem below_some (hn : below n) : ∀ k ∈ some n, below k := by
  rintro _ ⟨⟩
  exact hn

theorem list_reads (hbelow : Closed doc below) (hn : ∀ k ∈ operand, below k) :
    Reads E (fun items => ∀ m ∈ items, below m) (list doc path what operand) := by
  unfold list
  split
  · exact .pure (List.forall_mem_nil _)
  · next k =>
    split
    · next tag items line hk =>
      exact .pure fun m hm => hbelow m k ⟨tag, items, line, hk, hm⟩ (hn k rfl)
    · split
      · exact .pure (List.forall_mem_nil _)
      · exact .malformed

theorem names_reads (hbelow : Closed doc below) (hn : below n) :
    Reads E (fun _ => True) (names doc path what n) :=
  .bind (list_reads hbelow (below_some hn)) fun _ _ =>
    .mono (.mapM fun _ _ => scalar_reads) fun _ _ => trivial

variable (hbelow : Closed doc below)
  (hchild : ∀ path n, below n → Reads E Node.Complete (child path n))
include hbelow hchild

omit hbelow in
theorem optionalNode_reads (hn : ∀ k ∈ operand, below k) :
    Reads E (fun n => n = .absent ∨ n.Complete) (optionalNode child path operand) := by
  unfold optionalNode
  split
  · exact .pure (.inl rfl)
  · next k =>
    split
    · exact .pure (.inl rfl)
    · exact .mono (hchild path k (hn k rfl)) fun _ => .inr

theorem nodes_reads (hn : ∀ k ∈ operand, below k) :
    Reads E (fun ns => ∀ n ∈ ns, n.Complete) (nodes doc child path what operand) := by
  refine .bind (list_reads hbelow hn) fun items hitems => ?_
  refine .mono (.mapM (Q := Node.Complete) fun p hp => ?_) fun _ h => h.2
  exact hchild _ _ (hitems _ (List.fst_mem_of_mem_zipIdx hp))

theorem bindings_reads (hn : below n) :
    Reads E (fun ds => ∀ d ∈ ds, Node.Fills .optional d.2) (bindings doc child path n) := by
  refine .bind (list_reads hbelow (below_some hn)) fun items hitems => ?_
  refine .mono (.mapM (Q := fun d => Node.Fills .optional d.2) fun item hitem => ?_) fun _ h => h.2
  refine .bind (list_reads hbelow (below_some (hitems item hitem))) fun parts hparts => ?_
  split
  · exact .bind scalar_reads fun _ _ => .pure ((fills_optional_iff rfl).mpr (.inl rfl))
  · next x init =>
    have hinit := below_some (hparts init (by simp))
    exact .bind scalar_reads fun _ _ => .bind (optionalNode_reads hchild hinit) fun _ h =>
      .pure ((fills_optional_iff rfl).mpr h)
  · exact .malformed

theorem properties_reads (hn : below n) :
    Reads E (fun ps => ∀ p ∈ ps, p.2.Complete) (properties doc child path n) := by
  refine .bind (list_reads hbelow (below_some hn)) fun items hitems => ?_
  refine .mono (.mapM (Q := fun p => p.2.Complete) fun item hitem => ?_) fun _ h => h.2
  refine .bind (list_reads hbelow (below_some (hitems item hitem))) fun parts hparts => ?_
  split
  · next k v =>
    exact .bind scalar_reads fun _ _ => .bind (hchild _ v (hparts v (by simp))) fun _ h => .pure h
  · exact .malformed

theorem clauses_reads (hn : below n) :
    Reads E (fun cs => ∀ c ∈ cs, Node.Fills .optional c.1 ∧ ∀ m ∈ c.2, m.Complete)
      (clauses doc child path n) := by
  refine .bind (list_reads hbelow (below_some hn)) fun items hitems => ?_
  refine .mono (.mapM (Q := fun c => Node.Fills .optional c.1 ∧ ∀ m ∈ c.2, m.Complete)
    fun item hitem => ?_) fun _ h => h.2
  have hparts := below_some (hitems _ (List.fst_mem_of_mem_zipIdx hitem))
  refine .bind (list_reads hbelow hparts) fun parts hparts => ?_
  split
  · next test body =>
    have htest := below_some (hparts test (by simp))
    have hbody := below_some (hparts body (by simp))
    exact .bind (optionalNode_reads hchild htest) fun _ htest =>
      .bind (nodes_reads hbelow hchild hbody) fun _ hbody =>
      .pure ⟨(fills_optional_iff rfl).mpr htest, hbody⟩
  · exact .malformed

theorem handler_reads (hn : ∀ k ∈ operand, below k) :
    Reads E (fun h => ∀ c ∈ h, ∀ m ∈ c.2, m.Complete) (handler doc child path operand) := by
  unfold handler
  split
  · exact .pure fun c hc => absurd hc (Option.not_mem_none c)
  · next k =>
    split
    · exact .pure fun c hc => absurd hc (Option.not_mem_none c)
    · refine .bind (list_reads hbelow (below_some (hn k rfl))) fun parts hparts => ?_
      split
      · next x body =>
        have hbody := below_some (hparts body (by simp))
        refine .bind scalar_reads fun _ _ => .bind (nodes_reads hbelow hchild hbody) fun _ hbody =>
          .pure ?_
        rintro _ ⟨⟩
        exact hbody
      · exact .malformed

theorem finalizer_reads (hn : ∀ k ∈ operand, below k) :
    Reads E (fun f => ∀ ns ∈ f, ∀ m ∈ ns, m.Complete) (finalizer doc child path operand) := by
  unfold finalizer
  split
  · exact .pure fun c hc => absurd hc (Option.not_mem_none c)
  · next k =>
    split
    · exact .pure fun c hc => absurd hc (Option.not_mem_none c)
    · refine .bind (nodes_reads hbelow hchild (below_some (hn k rfl))) fun _ h =>
        .pure ?_
      rintro _ ⟨⟩
      exact h

/-- The operands of a node make a complete one. -/
theorem operands_reads {kind : Kind} {ops : List Yaml.Node} (hops : ∀ o ∈ ops, below o)
    (haccepts : kind.accepts ops.length = true) :
    Reads E Node.Complete (operands doc child path kind ops) := by
  have hhead {rest : List Yaml.Node} (hrest : ∀ o ∈ rest, below o) : ∀ k ∈ rest.head?, below k :=
    fun k hk => hrest k (List.mem_of_mem_head? hk)
  unfold operands
  split <;> dsimp only
  -- name, num, string and atom
  iterate 4
    exact .bind scalar_reads fun _ _ => .pure (.of_leaf rfl rfl rfl)
  -- regexp
  · exact .bind scalar_reads fun _ _ => .bind optionalScalar_reads fun _ _ =>
      .pure (.of_leaf rfl rfl rfl)
  -- array and object
  · exact .bind (nodes_reads hbelow hchild (below_some (hops _ (by simp)))) fun _ h =>
      .pure ((complete_list rfl rfl rfl rfl).mpr h)
  · exact .bind (properties_reads hbelow hchild (hops _ (by simp))) fun _ h =>
      .pure ((complete_fields rfl rfl rfl).mpr fun p hp => .inl (h p hp))
  -- call and new
  · exact .bind (hchild _ _ (hops _ (by simp))) fun _ hc =>
      .bind (nodes_reads hbelow hchild (below_some (hops _ (by simp)))) fun _ has =>
      .pure ((complete_applied rfl rfl rfl).mpr ⟨hc, has⟩)
  · obtain ⟨hc, hrest⟩ := List.forall_mem_cons.mp hops
    exact .bind (hchild _ _ hc) fun _ hc =>
      .bind (nodes_reads hbelow hchild (hhead hrest)) fun _ has =>
      .pure ((complete_applied rfl rfl rfl).mpr ⟨hc, has⟩)
  -- operators
  · exact .bind scalar_reads fun _ _ => .bind (hchild _ _ (hops _ (by simp))) fun _ hl =>
      .bind (hchild _ _ (hops _ (by simp))) fun _ hr =>
      .pure ((complete_two rfl rfl rfl).mpr ⟨.inl hl, .inl hr⟩)
  · exact .bind scalar_reads fun _ _ => .bind (hchild _ _ (hops _ (by simp))) fun _ he =>
      .pure ((complete_one rfl rfl rfl).mpr (.inl he))
  · exact .bind scalar_reads fun _ _ => .bind (hchild _ _ (hops _ (by simp))) fun _ he =>
      .pure ((complete_one rfl rfl rfl).mpr (.inl he))
  · exact .bind assignOperator_reads fun _ _ => .bind (hchild _ _ (hops _ (by simp))) fun _ ht =>
      .bind (hchild _ _ (hops _ (by simp))) fun _ hv =>
      .pure ((complete_two rfl rfl rfl).mpr ⟨.inl ht, .inl hv⟩)
  -- dot, sub and conditional
  · exact .bind (hchild _ _ (hops _ (by simp))) fun _ hb => .bind scalar_reads fun _ _ =>
      .pure ((complete_one rfl rfl rfl).mpr (.inl hb))
  · exact .bind (hchild _ _ (hops _ (by simp))) fun _ hb =>
      .bind (hchild _ _ (hops _ (by simp))) fun _ hi =>
      .pure ((complete_two rfl rfl rfl).mpr ⟨.inl hb, .inl hi⟩)
  · exact .bind (hchild _ _ (hops _ (by simp))) fun _ ht =>
      .bind (hchild _ _ (hops _ (by simp))) fun _ hy =>
      .bind (hchild _ _ (hops _ (by simp))) fun _ hn =>
      .pure ((complete_three rfl rfl rfl).mpr ⟨.inl ht, .inl hy, .inl hn⟩)
  -- an expression list has at least one operand
  · refine .bind (.mapM fun o ho => hchild _ o (hops o ho)) fun es hes => .pure ?_
    have hmember : (Node.seq es).substantial = true := by
      obtain ⟨hlength, -⟩ := hes
      cases es with
      | nil => simp [← hlength, Kind.accepts, Kind.arity] at haccepts
      | cons e es => rfl
    exact (complete_list rfl hmember rfl rfl).mpr hes.2
  -- function and defun
  · exact .bind optionalScalar_reads fun _ _ =>
      .bind (names_reads hbelow (hops _ (by simp))) fun _ _ =>
      .bind (nodes_reads hbelow hchild (below_some (hops _ (by simp)))) fun _ hb =>
      .pure ((complete_list rfl rfl rfl rfl).mpr hb)
  · refine .bind optionalScalar_reads fun name _ =>
      .bind (names_reads hbelow (hops _ (by simp))) fun params _ =>
      .bind (nodes_reads hbelow hchild (below_some (hops _ (by simp)))) fun body hb => ?_
    split
    · exact .malformed
    · next hname =>
      have hnamed : (Node.defun name params body).substantial = true := by
        simpa [substantial] using hname
      exact .pure ((complete_list rfl hnamed rfl rfl).mpr hb)
  -- stat, var, const and block
  · exact .bind (hchild _ _ (hops _ (by simp))) fun _ he =>
      .pure ((complete_one rfl rfl rfl).mpr (.inl he))
  · exact .bind (bindings_reads hbelow hchild (hops _ (by simp))) fun _ h =>
      .pure ((complete_fields rfl rfl rfl).mpr h)
  · exact .bind (bindings_reads hbelow hchild (hops _ (by simp))) fun _ h =>
      .pure ((complete_fields rfl rfl rfl).mpr h)
  · exact .bind (nodes_reads hbelow hchild (hhead hops)) fun _ h =>
      .pure ((complete_list rfl rfl rfl rfl).mpr h)
  -- if
  · obtain ⟨hc, hops⟩ := List.forall_mem_cons.mp hops
    obtain ⟨hy, hrest⟩ := List.forall_mem_cons.mp hops
    exact .bind (hchild _ _ hc) fun _ hc => .bind (hchild _ _ hy) fun _ hy =>
      .bind (optionalNode_reads hchild (hhead hrest)) fun _ hn =>
      .pure ((complete_three rfl rfl rfl).mpr
        ⟨.inl hc, .inl hy, (fills_optional_iff rfl).mpr hn⟩)
  -- for, with a body in any case
  · refine .bind (optionalNode_reads hchild (below_some (hops _ (by simp)))) fun _ hi =>
      .bind (optionalNode_reads hchild (below_some (hops _ (by simp)))) fun _ hc =>
      .bind (optionalNode_reads hchild (below_some (hops _ (by simp)))) fun _ hs =>
      .bind (optionalNode_reads hchild (below_some (hops _ (by simp)))) fun body hb => ?_
    split
    · exact .malformed
    · next hpresent =>
      have hb : body.Complete := hb.resolve_left fun ha => hpresent (by rw [ha]; rfl)
      exact .pure ((complete_four rfl rfl rfl).mpr ⟨(fills_optional_iff rfl).mpr hi,
        (fills_optional_iff rfl).mpr hc, (fills_optional_iff rfl).mpr hs, .inl hb⟩)
  -- for-in with three operands and with four
  iterate 2
    exact .bind (hchild _ _ (hops _ (by simp))) fun _ hi =>
      .bind (hchild _ _ (hops _ (by simp))) fun _ ho =>
      .bind (hchild _ _ (hops _ (by simp))) fun _ hb =>
      .pure ((complete_three rfl rfl rfl).mpr ⟨.inl hi, .inl ho, .inl hb⟩)
  -- while and do
  · exact .bind (hchild _ _ (hops _ (by simp))) fun _ hc =>
      .bind (hchild _ _ (hops _ (by simp))) fun _ hb =>
      .pure ((complete_two rfl rfl rfl).mpr ⟨.inl hc, .inl hb⟩)
  · exact .bind (hchild _ _ (hops _ (by simp))) fun _ hc =>
      .bind (hchild _ _ (hops _ (by simp))) fun _ hb =>
      .pure ((complete_two rfl rfl rfl).mpr ⟨.inl hb, .inl hc⟩)
  -- jumps
  iterate 2
    exact .bind optionalScalar_reads fun _ _ => .pure (.of_leaf rfl rfl rfl)
  · exact .pure (.of_leaf rfl rfl rfl)
  · exact .bind scalar_reads fun _ _ => .bind (hchild _ _ (hops _ (by simp))) fun _ hb =>
      .pure ((complete_one rfl rfl rfl).mpr (.inl hb))
  · exact .bind (optionalNode_reads hchild (hhead hops)) fun _ hv =>
      .pure ((complete_one rfl rfl rfl).mpr ((fills_optional_iff rfl).mpr hv))
  · exact .bind (hchild _ _ (hops _ (by simp))) fun _ hv =>
      .pure ((complete_one rfl rfl rfl).mpr (.inl hv))
  -- try, switch and with
  · obtain ⟨hb, hrest⟩ := List.forall_mem_cons.mp hops
    have hlast := hhead fun o ho => hrest o (List.mem_of_mem_drop (i := 1) ho)
    exact .bind (nodes_reads hbelow hchild (below_some hb)) fun _ hb =>
      .bind (handler_reads hbelow hchild (hhead hrest)) fun _ hh =>
      .bind (finalizer_reads hbelow hchild hlast) fun _ hf =>
      .pure (complete_tryCatch.mpr ⟨hb, hh, hf⟩)
  · exact .bind (hchild _ _ (hops _ (by simp))) fun _ hd =>
      .bind (clauses_reads hbelow hchild (hops _ (by simp))) fun _ hcs =>
      .pure (complete_switch.mpr ⟨hd, hcs⟩)
  · exact .bind (hchild _ _ (hops _ (by simp))) fun _ ho =>
      .bind (hchild _ _ (hops _ (by simp))) fun _ hb =>
      .pure ((complete_two rfl rfl rfl).mpr ⟨.inl ho, .inl hb⟩)
  -- toplevel and splice
  iterate 2
    exact .bind (nodes_reads hbelow hchild (below_some (hops _ (by simp)))) fun _ h =>
      .pure ((complete_list rfl rfl rfl rfl).mpr h)
  · exact .failed ⟨_, _, rfl, rfl⟩

omit hbelow in
/-- A step reads a complete node, if the reader of operands does so for what is inside. -/
theorem decodeStep_reads (hbelow : Closed doc below) (hn : ∀ m, doc.Inside m n → below m) :
    Reads E Node.Complete (decodeStep doc child path n) := by
  unfold decodeStep
  split
  · next sequenceTag head ops line hseq =>
    have hops : ∀ o ∈ ops, below o := fun o ho =>
      hn o ⟨sequenceTag, head :: ops, line, hseq, List.mem_cons_of_mem _ ho⟩
    refine .bind scalar_reads fun tag _ => ?_
    split
    · exact .failed ⟨_, _, rfl, rfl⟩
    · split
      · next haccepts => exact operands_reads hbelow hchild hops haccepts
      · exact .malformed
  · exact .malformed

end

/-! ## §3. Whole documents. -/

section

variable {doc : Yaml.Document}

/-- What a document is read as is complete, and a reading that fails does so with a report of its
    phase. -/
theorem reads_of_decode {path : Path} {n : Yaml.Node} {r : Except Failure Node}
    (h : doc.decode path n = some r) : Reads False Node.Complete (some r) := by
  have step := Yaml.Document.decode.partial_correctness doc
    fun _ _ r => Reads False Node.Complete (some r)
  refine step (fun child hchild path n r hr => ?_) path n r h
  -- an approximation may give up on an operand, and then there is no answer
  have hreads : Reads True Node.Complete (decodeStep doc child path n) := by
    have hclosed : Closed doc (fun _ => True) := fun _ _ _ _ => trivial
    refine decodeStep_reads (fun path m _ => ?_) hclosed fun _ _ => trivial
    cases hm : child path m with
    | none => exact .endless trivial
    | some r =>
      cases hchild path m r hm with
      | ok h => exact .ok h
      | failed h => exact .failed h
  rw [hr] at hreads
  cases hreads with
  | ok h => exact .ok h
  | failed h => exact .failed h

variable (doc) in
/-- A reading that gives up behind so many steps. -/
def within : Nat → NodeReader
  | 0 => fun _ _ => none
  | k + 1 => decodeStep doc (within k)

/-- What is read in so many steps is read. -/
theorem decode_of_within {k : Nat} {path : Path} {n : Yaml.Node} {r : Except Failure Node}
    (h : within doc k path n = some r) : doc.decode path n = some r := by
  induction k generalizing path n r with
  | zero => cases h
  | succ k ih =>
    rw [Yaml.Document.decode.eq_1]
    exact decodeStep_extends (fun _ _ _ h => ih h) path n r h

end

end Tree

namespace Node

variable {bytes : Bytes} {n : Node}

theorem complete_of_parse (h : parse bytes = .ok n) : n.Complete := by
  unfold parse at h
  split at h
  · cases h
  · cases h
  · next doc _ =>
    unfold ofDocument at h
    split at h
    · next result hdecode =>
      rw [h] at hdecode
      cases Tree.reads_of_decode hdecode with
      | ok h => exact h
    · cases h

/-- A unit is a complete tree of its own, also where a document gives a declaration only. -/
theorem complete_of_parseUnit (h : parseUnit bytes = .ok n) :
    n.Complete ∧ ∃ body, n = .toplevel body := by
  unfold parseUnit at h
  cases hp : parse bytes with
  | error e =>
    rw [hp] at h
    cases h
  | ok m =>
    have hm : m.Complete := complete_of_parse hp
    rw [hp] at h
    cases m with
    | toplevel body =>
      cases h
      exact ⟨hm, _, rfl⟩
    | defun f params body =>
      cases h
      refine ⟨(complete_list rfl rfl rfl rfl).mpr ?_, _, rfl⟩
      exact List.forall_mem_singleton.mpr hm
    | _ => cases h

theorem parseUnit_of_parse (h : parse bytes = .ok n) (hn : n.kind? = some .toplevel) :
    parseUnit bytes = .ok n := by
  cases n with
  | toplevel body =>
    rw [parseUnit, h]
    rfl
  | unary side _ _ => cases side <;> cases hn
  | _ => cases hn

/-- Reads a document that holds any single node, to a depth. -/
def parseWithin (k : Nat) (bytes : Bytes) : Option (Except Failure Node) :=
  match Yaml.Document.parse bytes with
  | .error _ => some (.error (.parseFailed "tree document" (some .external)))
  | .ok none => some (.error (.invalidInput .parse "empty tree document"))
  | .ok (some doc) => Tree.within doc k [] doc.root

/-- What is read to a depth is read. -/
theorem parse_of_parseWithin {k : Nat} {r : Except Failure Node}
    (h : parseWithin k bytes = some r) : parse bytes = r := by
  unfold parseWithin at h
  split at h
  · next hdoc =>
    cases h
    rw [parse, hdoc]
  · next hdoc =>
    cases h
    rw [parse, hdoc]
  · next doc hdoc => simp only [parse, hdoc, ofDocument, Tree.decode_of_within h]

/-- Whether a tree with a property is read to a depth. -/
def readsWithin (k : Nat) (bytes : Bytes) (p : Node → Bool) : Bool :=
  match parseWithin k bytes with
  | some (.ok n) => p n
  | _ => false

theorem exists_of_readsWithin {k : Nat} {p : Node → Bool} (h : readsWithin k bytes p = true) :
    ∃ n, parse bytes = .ok n ∧ p n = true := by
  unfold readsWithin at h
  split at h
  · next n hn => exact ⟨n, parse_of_parseWithin hn, h⟩
  · cases h

end Node

end Resumable
