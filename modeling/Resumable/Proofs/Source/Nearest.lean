/-
  Resumable.Proofs.Source.Nearest — where an `else` goes.

  A statement can end with an `if` that has no `else` (`endsOpen`), and one that stands behind it
  goes there.  The printer puts braces around the first side of an `if` only if that is itself an
  `if` without an `else`, and not if it ends with one further inside.

  `attached` moves each `else` to where it goes (`hang`), and puts the braces of the printer into
  the tree.  That leaves the layout as it is (`lay_attached`), and changes where an `else` belongs
  exactly where the printer does not guard it (`elses_attached`).

  The fragment is made of `if`, loops, `with`, blocks and expression statements, with identifiers
  in their headers.
-/
import Resumable.Proofs.Sorts.Gaps
import Resumable.Proofs.Source.Printing

namespace Resumable.Reading

open Source (Layout)
open Source.Layout (ofText)
open Node (Throughout throughout_iff forall_two forall_three forall_four forall_list
  throughout_absent)

/-! ## §1. Statements. -/

/-- A name that is no reserved word. -/
structure IsIdentifier (x : String) : Prop where
  name : isName x = true
  free : x ∉ reservedWords

/-- A part of a loop header: an identifier, or nothing. -/
inductive IsPart : Node → Prop
  | none : IsPart .absent
  | some {x : String} (h : IsIdentifier x) : IsPart (.name x)

/-- A statement made of `if`, loops, `with`, blocks and expression statements, with identifiers for
    its conditions, loop parts and expressions. -/
inductive Plain : Node → Prop
  | stat {x : String} (h : IsIdentifier x) : Plain (.stat (.name x))
  | block {ns : List Node} (h : ∀ n ∈ ns, Plain n) : Plain (.block ns)
  | ifOnly {c : String} {y : Node} (hc : IsIdentifier c) (hy : Plain y) :
      Plain (.ifElse (.name c) y .absent)
  | ifElse {c : String} {y n : Node} (hc : IsIdentifier c) (hy : Plain y) (hn : Plain n) :
      Plain (.ifElse (.name c) y n)
  | forLoop {i c s b : Node} (hi : IsPart i) (hc : IsPart c) (hs : IsPart s) (hb : Plain b) :
      Plain (.forLoop i c s b)
  | forIn {i o : String} {b : Node} (hi : IsIdentifier i) (ho : IsIdentifier o) (hb : Plain b) :
      Plain (.forIn (.name i) (.name o) b)
  | whileLoop {c : String} {b : Node} (hc : IsIdentifier c) (hb : Plain b) :
      Plain (.whileLoop (.name c) b)
  | withObject {o : String} {b : Node} (ho : IsIdentifier o) (hb : Plain b) :
      Plain (.withObject (.name o) b)

/-- Whether a statement ends with an `if` that has no `else`. -/
@[simp]
def endsOpen : Node → Bool
  | .ifElse _ _ n => if n.isAbsent then true else endsOpen n
  | .forLoop _ _ _ b | .forIn _ _ b | .whileLoop _ b | .withObject _ b => endsOpen b
  | _ => false

/-- A statement with an `else` behind it, at the last `if` that has none. -/
@[simp]
def hang (n : Node) : Node → Node
  | .ifElse c y e =>
    if e.isAbsent then
      if endsOpen y then .ifElse c (hang n y) .absent else .ifElse c y n
    else .ifElse c y (hang n e)
  | .forLoop i c s b => .forLoop i c s (hang n b)
  | .forIn i o b => .forIn i o (hang n b)
  | .whileLoop c b => .whileLoop c (hang n b)
  | .withObject o b => .withObject o (hang n b)
  | t => t

mutual

/-- A statement with each `else` where it goes in the text, and with the braces of the printer. -/
@[simp]
def attached : Node → Node
  | .ifElse c y n =>
    if n.isAbsent then .ifElse c (attached y) .absent
    else if Source.capturesElse y then .ifElse c (.block [attached y]) (attached n)
    else if endsOpen (attached y) then .ifElse c (hang (attached n) (attached y)) .absent
    else .ifElse c (attached y) (attached n)
  | .block ns => .block (attachedAll ns)
  | .forLoop i c s b => .forLoop i c s (attached b)
  | .forIn i o b => .forIn i o (attached b)
  | .whileLoop c b => .whileLoop c (attached b)
  | .withObject o b => .withObject o (attached b)
  | t => t

/-- The statements of a block. -/
@[simp]
def attachedAll : List Node → List Node
  | [] => []
  | n :: ns => attached n :: attachedAll ns

end

/-- No `else` stands behind an open `if`. -/
def Closed : Node → Prop
  | .ifElse _ y n => n.isAbsent = true ∨ endsOpen y = false
  | _ => True

/-- No `else` stands behind an open `if`, or the printer puts braces around it. -/
def Guarded : Node → Prop
  | .ifElse _ y n => n.isAbsent = true ∨ Source.capturesElse y = true ∨ endsOpen y = false
  | _ => True

section

variable {t c y n e : Node} {ns : List Node}

theorem Plain.isAbsent (h : Plain t) : t.isAbsent = false := by
  cases h <;> rfl

/-! ### The equations of an `if` with and without an `else`. -/

theorem endsOpen_ifElse (he : e.isAbsent = false) : endsOpen (.ifElse c y e) = endsOpen e := by
  rw [endsOpen, he]
  rfl

theorem hang_ifOnly : hang n (.ifElse c y .absent) =
    if endsOpen y then .ifElse c (hang n y) .absent else .ifElse c y n := by
  rw [hang]
  rfl

theorem hang_ifElse (he : e.isAbsent = false) :
    hang n (.ifElse c y e) = .ifElse c y (hang n e) := by
  rw [hang, he]
  rfl

theorem attached_ifOnly :
    attached (.ifElse c y .absent) = .ifElse c (attached y) .absent := by
  rw [attached]
  rfl

theorem attached_ifElse (he : e.isAbsent = false) : attached (.ifElse c y e) =
    if Source.capturesElse y then .ifElse c (.block [attached y]) (attached e)
    else if endsOpen (attached y) then .ifElse c (hang (attached e) (attached y)) .absent
    else .ifElse c (attached y) (attached e) := by
  rw [attached, he]
  rfl

theorem attachedAll_eq (ns : List Node) : attachedAll ns = ns.map attached := by
  induction ns with
  | nil => rw [attachedAll, List.map_nil]
  | cons n ns ih => rw [attachedAll, ih, List.map_cons]

/-- What the printer guards is open. -/
theorem endsOpen_of_capturesElse (h : Source.capturesElse y = true) : endsOpen y = true := by
  unfold Source.capturesElse at h
  split at h
  · rfl
  · cases h

theorem capturesElse_eq_false (h : endsOpen y = false) : Source.capturesElse y = false :=
  Bool.eq_false_iff.mpr fun hy => Bool.eq_false_iff.mp h (endsOpen_of_capturesElse hy)

/-! ### The fragment is closed. -/

theorem plain_hang (hy : Plain y) (hn : Plain n) (ho : endsOpen y = true) : Plain (hang n y) := by
  induction hy with
  | stat | block => cases ho
  | ifOnly hc hy ih =>
    rw [hang_ifOnly]
    split
    · next h => exact .ifOnly hc (ih h)
    · exact .ifElse hc hy hn
  | ifElse hc hy he _ ih =>
    rw [endsOpen_ifElse he.isAbsent] at ho
    rw [hang_ifElse he.isAbsent]
    exact .ifElse hc hy (ih ho)
  | forLoop hi hc hs _ ih => exact .forLoop hi hc hs (ih ho)
  | forIn hi hobject _ ih => exact .forIn hi hobject (ih ho)
  | whileLoop hc _ ih => exact .whileLoop hc (ih ho)
  | withObject hobject _ ih => exact .withObject hobject (ih ho)

theorem plain_attached (h : Plain t) : Plain (attached t) := by
  induction h with
  | stat h => exact .stat h
  | block _ ih =>
    rw [attached, attachedAll_eq]
    exact .block (List.forall_mem_map.mpr ih)
  | ifOnly hc _ ih =>
    rw [attached_ifOnly]
    exact .ifOnly hc ih
  | ifElse hc _ hn ihy ihn =>
    rw [attached_ifElse hn.isAbsent]
    split
    · exact .ifElse hc (.block (List.forall_mem_singleton.mpr ihy)) ihn
    · split
      · next ho => exact .ifOnly hc (plain_hang ihy ihn ho)
      · exact .ifElse hc ihy ihn
  | forLoop hi hc hs _ ih => exact .forLoop hi hc hs ih
  | forIn hi ho _ ih => exact .forIn hi ho ih
  | whileLoop hc _ ih => exact .whileLoop hc ih
  | withObject ho _ ih => exact .withObject ho ih

/-! ### No `else` is left behind an open `if`. -/

theorem IsPart.throughout {P : Node → Prop} (hP : ∀ x, P (.name x)) (h : IsPart n) :
    Throughout P n := by
  cases h with
  | none => exact throughout_absent
  | some h => exact (throughout_iff rfl).mpr ⟨hP _, List.forall_mem_nil _⟩

theorem closed_name (x : String) : Throughout Closed (.name x) :=
  (throughout_iff rfl).mpr ⟨trivial, List.forall_mem_nil _⟩

theorem closed_ifElse {x : String} (hy : Throughout Closed y) (he : Throughout Closed e)
    (h : e.isAbsent = true ∨ endsOpen y = false) : Throughout Closed (.ifElse (.name x) y e) := by
  rw [throughout_iff rfl, forall_three rfl]
  exact ⟨h, closed_name x, hy, he⟩

theorem closed_hang (hy : Plain y) (hn : Throughout Closed n) (ho : endsOpen y = true)
    (h : Throughout Closed y) : Throughout Closed (hang n y) := by
  induction hy with
  | stat | block => cases ho
  | ifOnly hc hy ih =>
    obtain ⟨-, hparts⟩ := (throughout_iff rfl).mp h
    obtain ⟨-, hy, -⟩ := (forall_three rfl).mp hparts
    rw [hang_ifOnly]
    split
    · next ho => exact closed_ifElse (ih ho hy) throughout_absent (.inl rfl)
    · next ho => exact closed_ifElse hy hn (.inr (Bool.eq_false_iff.mpr ho))
  | ifElse hc hy he _ ih =>
    obtain ⟨hclosed, hparts⟩ := (throughout_iff rfl).mp h
    obtain ⟨-, hy, he'⟩ := (forall_three rfl).mp hparts
    rw [endsOpen_ifElse he.isAbsent] at ho
    rw [hang_ifElse he.isAbsent]
    refine closed_ifElse hy (ih ho he') (.inr (hclosed.resolve_left ?_))
    simp [he.isAbsent]
  | forLoop hi hc hs _ ih =>
    obtain ⟨-, hparts⟩ := (throughout_iff rfl).mp h
    obtain ⟨hi, hc, hs, hb⟩ := (forall_four rfl).mp hparts
    rw [hang, throughout_iff rfl, forall_four rfl]
    exact ⟨trivial, hi, hc, hs, ih ho hb⟩
  | forIn hi hobject _ ih =>
    obtain ⟨-, hparts⟩ := (throughout_iff rfl).mp h
    obtain ⟨hi, hobject, hb⟩ := (forall_three rfl).mp hparts
    rw [hang, throughout_iff rfl, forall_three rfl]
    exact ⟨trivial, hi, hobject, ih ho hb⟩
  | whileLoop _ _ ih | withObject _ _ ih =>
    obtain ⟨-, hparts⟩ := (throughout_iff rfl).mp h
    obtain ⟨hc, hb⟩ := (forall_two rfl).mp hparts
    rw [hang, throughout_iff rfl, forall_two rfl]
    exact ⟨trivial, hc, ih ho hb⟩

theorem closed_attached (h : Plain t) : Throughout Closed (attached t) := by
  induction h with
  | stat h =>
    rw [attached]
    · exact (throughout_iff rfl).mpr ⟨trivial, List.forall_mem_singleton.mpr (closed_name _)⟩
    all_goals exact nofun
  | block _ ih =>
    rw [attached, attachedAll_eq, throughout_iff rfl, forall_list rfl]
    exact ⟨trivial, List.forall_mem_map.mpr ih⟩
  | ifOnly _ _ ih =>
    rw [attached_ifOnly]
    exact closed_ifElse ih throughout_absent (.inl rfl)
  | @ifElse c y n hc hy hn ihy ihn =>
    rw [attached_ifElse hn.isAbsent]
    split
    · have hblock : Throughout Closed (.block [attached y]) := by
        rw [throughout_iff rfl, forall_list rfl]
        exact ⟨trivial, List.forall_mem_singleton.mpr ihy⟩
      exact closed_ifElse hblock ihn (.inr rfl)
    · split
      · next ho =>
        have hhang := closed_hang (plain_attached hy) ihn ho ihy
        exact closed_ifElse hhang throughout_absent (.inl rfl)
      · next ho => exact closed_ifElse ihy ihn (.inr (Bool.eq_false_iff.mpr ho))
  | forLoop hi hc hs _ ih =>
    rw [attached, throughout_iff rfl, forall_four rfl]
    exact ⟨trivial, hi.throughout fun _ => trivial, hc.throughout fun _ => trivial,
      hs.throughout fun _ => trivial, ih⟩
  | forIn _ _ _ ih =>
    rw [attached, throughout_iff rfl, forall_three rfl]
    exact ⟨trivial, closed_name _, closed_name _, ih⟩
  | whileLoop _ _ ih | withObject _ _ ih =>
    rw [attached, throughout_iff rfl, forall_two rfl]
    exact ⟨trivial, closed_name _, ih⟩

end

/-! ## §2. Layouts. -/

/-- The layout of an identifier, or of nothing. -/
def layName : Node → Layout
  | .name x => ofText x
  | _ => []

mutual

/-- The layout of a statement. -/
@[simp]
def lay (depth : Nat) : Node → Layout
  | .stat e => layName e ++ ofText ";"
  | .block ns => Layout.braced depth (layAll (depth + 1) ns)
  | .ifElse c y n =>
    ofText "if (" ++ layName c ++ ofText ") " ++
      (if Source.capturesElse y && !n.isAbsent then Layout.braced depth [lay (depth + 1) y]
        else lay depth y) ++
      (if n.isAbsent then [] else ofText " else " ++ lay depth n)
  | .forLoop i c s b =>
    ofText "for (" ++ layName i ++ ofText "; " ++ layName c ++ ofText "; " ++ layName s ++
      ofText ") " ++ lay depth b
  | .forIn i o b =>
    ofText "for (" ++ layName i ++ ofText " in " ++ layName o ++ ofText ") " ++ lay depth b
  | .whileLoop c b => ofText "while (" ++ layName c ++ ofText ") " ++ lay depth b
  | .withObject o b => ofText "with (" ++ layName o ++ ofText ") " ++ lay depth b
  | _ => []

/-- The layouts of the statements of a block. -/
@[simp]
def layAll (depth : Nat) : List Node → List Layout
  | [] => []
  | n :: ns => lay depth n :: layAll depth ns

end

section

variable {t c y n e : Node} {ns : List Node} {depth : Nat}

theorem layAll_eq (depth : Nat) (ns : List Node) : layAll depth ns = ns.map (lay depth) := by
  induction ns with
  | nil => rw [layAll, List.map_nil]
  | cons n ns ih => rw [layAll, ih, List.map_cons]

theorem lay_ifOnly : lay depth (.ifElse c y .absent) =
    ofText "if (" ++ layName c ++ ofText ") " ++ lay depth y := by
  rw [lay]
  simp [Node.isAbsent]

/-- With an `else` behind it, the first side is in braces if the printer guards it. -/
theorem lay_ifElse (he : e.isAbsent = false) : lay depth (.ifElse c y e) =
    ofText "if (" ++ layName c ++ ofText ") " ++
      ((if Source.capturesElse y then Layout.braced depth [lay (depth + 1) y] else lay depth y) ++
        (ofText " else " ++ lay depth e)) := by
  rw [lay]
  simp [he]

theorem lay_ifElse_free (he : e.isAbsent = false) (hy : Source.capturesElse y = false) :
    lay depth (.ifElse c y e) = ofText "if (" ++ layName c ++ ofText ") " ++
      (lay depth y ++ (ofText " else " ++ lay depth e)) := by
  rw [lay_ifElse he, hy, if_neg Bool.false_ne_true]

/-- A statement of the fragment is no expression, and gets no semicolon. -/
theorem Plain.asStatement (h : Plain n) (form : Except Failure Layout) :
    Source.asStatement n form = form := by
  cases h <;> rfl

theorem statements_plain (h : ∀ n ∈ ns, Plain n)
    (hform : ∀ n ∈ ns, Source.form depth false n = .ok (lay depth n)) :
    Source.statements depth ns = .ok (ns.map (lay depth)) := by
  induction ns with
  | nil => rfl
  | cons n ns ih =>
    obtain ⟨hn, hns⟩ := List.forall_mem_cons.mp h
    obtain ⟨hfirst, hothers⟩ := List.forall_mem_cons.mp hform
    have hnode : Source.statements depth (n :: ns) = do
        let first ← Source.asStatement n (Source.form depth false n)
        return first :: (← Source.statements depth ns) := by
      rw [Source.statements]
      · rintro rfl
        cases hn
      · rintro ms rfl
        cases hn
    rw [hnode, hn.asStatement, hfirst, ih hns hothers]
    rfl

theorem asOptional_part (h : IsPart n) :
    Source.asOptional n (Source.form depth false n) = .ok (layName n) := by
  cases h <;> rfl

theorem asHeader_part (h : IsPart n) :
    Source.asHeader n (Source.form depth false n) = .ok (layName n) := by
  cases h <;> rfl

/-- The printer lays a statement of the fragment out as `lay` says. -/
theorem form_plain (h : Plain t) (depth : Nat) (asBody : Bool) :
    Source.form depth asBody t = .ok (lay depth t) := by
  induction h generalizing depth asBody with
  | stat => rfl
  | block h ih =>
    rw [Source.form, statements_plain h fun n hn => ih n hn (depth + 1) false, lay, layAll_eq]
    rfl
  | @ifOnly c y _ hy ih =>
    have hcond : Source.asOperand Source.Precedence.lowest (.name c)
        (Source.form depth false (.name c)) = .ok (ofText c) := rfl
    have hcaptures : (Source.capturesElse y && !Node.absent.isAbsent) = false := Bool.and_false _
    rw [Source.form, lay_ifOnly, hcond, hcaptures, hy.asStatement, hy.asStatement, ih, ih]
    exact congrArg Except.ok (List.append_nil _)
  | @ifElse c y n _ hy hn ihy ihn =>
    have hcond : Source.asOperand Source.Precedence.lowest (.name c)
        (Source.form depth false (.name c)) = .ok (ofText c) := rfl
    rw [Source.form, lay_ifElse hn.isAbsent, hcond, hn.isAbsent, hy.asStatement, hy.asStatement,
      hn.asStatement, ihy, ihy, ihn, Bool.not_false, Bool.and_true, ← List.append_assoc]
    cases Source.capturesElse y <;> rfl
  | forLoop hi hc hs hb ih =>
    rw [Source.form, hb.asStatement, ih, asHeader_part hi, asOptional_part hc, asOptional_part hs]
    rfl
  | forIn _ _ hb ih =>
    rw [Source.form, hb.asStatement, ih]
    · rfl
    · intro ds hds
      cases hds
  | whileLoop _ hb ih =>
    rw [Source.form, hb.asStatement, ih]
    rfl
  | withObject _ hb ih =>
    rw [Source.form, hb.asStatement, ih]
    rfl

/-! ### An `else` that is moved stays in the text where it is. -/

theorem lay_hang (hy : Plain y) (hn : Plain n) (hclosed : Throughout Closed y)
    (ho : endsOpen y = true) (depth : Nat) :
    lay depth (hang n y) = lay depth y ++ (ofText " else " ++ lay depth n) := by
  induction hy with
  | stat | block => cases ho
  | ifOnly hc hy ih =>
    obtain ⟨-, hparts⟩ := (throughout_iff rfl).mp hclosed
    obtain ⟨-, hy, -⟩ := (forall_three rfl).mp hparts
    rw [hang_ifOnly, lay_ifOnly]
    split
    · next h => rw [lay_ifOnly, ih hy h, List.append_assoc _ (lay depth _)]
    · next h =>
      have hfree := capturesElse_eq_false (Bool.eq_false_iff.mpr h)
      rw [lay_ifElse_free hn.isAbsent hfree, List.append_assoc _ (lay depth _)]
  | ifElse hc hy he _ ih =>
    obtain ⟨-, hparts⟩ := (throughout_iff rfl).mp hclosed
    obtain ⟨-, -, he'⟩ := (forall_three rfl).mp hparts
    rw [endsOpen_ifElse he.isAbsent] at ho
    rw [hang_ifElse he.isAbsent, lay_ifElse he.isAbsent, lay_ifElse (plain_hang he hn ho).isAbsent,
      ih he' ho]
    simp only [List.append_assoc]
  | forLoop _ _ _ _ ih =>
    obtain ⟨-, hparts⟩ := (throughout_iff rfl).mp hclosed
    obtain ⟨-, -, -, hb⟩ := (forall_four rfl).mp hparts
    rw [hang, lay, lay, ih hb ho, List.append_assoc _ (lay depth _)]
  | forIn _ _ _ ih =>
    obtain ⟨-, hparts⟩ := (throughout_iff rfl).mp hclosed
    obtain ⟨-, -, hb⟩ := (forall_three rfl).mp hparts
    rw [hang, lay, lay, ih hb ho, List.append_assoc _ (lay depth _)]
  | whileLoop _ _ ih | withObject _ _ ih =>
    obtain ⟨-, hparts⟩ := (throughout_iff rfl).mp hclosed
    obtain ⟨-, hb⟩ := (forall_two rfl).mp hparts
    rw [hang, lay, lay, ih hb ho, List.append_assoc _ (lay depth _)]

/-- A statement has the layout of what it is read as. -/
theorem lay_attached (h : Plain t) (depth : Nat) : lay depth (attached t) = lay depth t := by
  induction h generalizing depth with
  | stat => rfl
  | block _ ih =>
    rw [attached, attachedAll_eq, lay, lay, layAll_eq, layAll_eq, List.map_map]
    exact congrArg _ (List.map_congr_left fun n hn => ih n hn (depth + 1))
  | ifOnly _ _ ih => rw [attached_ifOnly, lay_ifOnly, lay_ifOnly, ih]
  | @ifElse c y n _ hy hn ihy ihn =>
    have hn' := (plain_attached hn).isAbsent
    rw [attached_ifElse hn.isAbsent, lay_ifElse hn.isAbsent]
    split
    · have hblock : lay depth (.block [attached y]) = Layout.braced depth [lay (depth + 1) y] := by
        rw [lay, layAll, layAll, ihy]
      rw [lay_ifElse_free hn' rfl, hblock, ihn]
    · next hcaptures =>
      split
      · next ho =>
        rw [lay_ifOnly, lay_hang (plain_attached hy) (plain_attached hn) (closed_attached hy) ho,
          ihy, ihn]
      · next ho =>
        have hfree := capturesElse_eq_false (Bool.eq_false_iff.mpr ho)
        rw [lay_ifElse_free hn' hfree, ihy, ihn]
  | forLoop _ _ _ _ ih | forIn _ _ _ ih | whileLoop _ _ ih | withObject _ _ ih =>
    rw [attached, lay, lay, ih]

end

/-! ## §3. Which `if` has an `else`. -/

mutual

/-- Whether each `if` of a statement has an `else`, in the order of the text. -/
@[simp]
def elses : Node → List Bool
  | .ifElse _ y n => (!n.isAbsent) :: (elses y ++ elses n)
  | .block ns => elsesAll ns
  | .forLoop _ _ _ b | .forIn _ _ b | .whileLoop _ b | .withObject _ b => elses b
  | _ => []

/-- The same of the statements of a block. -/
@[simp]
def elsesAll : List Node → List Bool
  | [] => []
  | n :: ns => elses n ++ elsesAll ns

end

mutual

/-- A statement with each block of one statement replaced by the statement. -/
@[simp]
def unwrapped : Node → Node
  | .block ns =>
    match unwrappedAll ns with
    | [n] => n
    | ns => .block ns
  | .ifElse c y n => .ifElse c (unwrapped y) (unwrapped n)
  | .forLoop i c s b => .forLoop i c s (unwrapped b)
  | .forIn i o b => .forIn i o (unwrapped b)
  | .whileLoop c b => .whileLoop c (unwrapped b)
  | .withObject o b => .withObject o (unwrapped b)
  | t => t

/-- The statements of a block. -/
@[simp]
def unwrappedAll : List Node → List Node
  | [] => []
  | n :: ns => unwrapped n :: unwrappedAll ns

end

section

variable {t c y n e : Node} {ns : List Node}

theorem elsesAll_eq (ns : List Node) : elsesAll ns = ns.flatMap elses := by
  induction ns with
  | nil => rw [elsesAll, List.flatMap_nil]
  | cons n ns ih => rw [elsesAll, ih, List.flatMap_cons]

theorem unwrappedAll_eq (ns : List Node) : unwrappedAll ns = ns.map unwrapped := by
  induction ns with
  | nil => rw [unwrappedAll, List.map_nil]
  | cons n ns ih => rw [unwrappedAll, ih, List.map_cons]

theorem unwrapped_block_single (n : Node) : unwrapped (.block [n]) = unwrapped n := by
  rw [unwrapped, unwrappedAll, unwrappedAll]

/-- A block of one statement has no `if` of its own. -/
theorem elses_unwrapped (h : Plain t) :
    elses (unwrapped t) = elses t ∧ (unwrapped t).isAbsent = false := by
  induction h with
  | stat => exact ⟨rfl, rfl⟩
  | @block ns _ ih =>
    have hall : elsesAll (ns.map unwrapped) = elsesAll ns := by
      rw [elsesAll_eq, elsesAll_eq, List.flatMap_map, List.flatMap_def, List.flatMap_def]
      exact congrArg _ (List.map_congr_left fun n hn => (ih n hn).1)
    rw [unwrapped, unwrappedAll_eq, elses, ← hall]
    match ns, ih with
    | [], _ => exact ⟨rfl, rfl⟩
    | [n], ih =>
      rw [List.map_singleton, elsesAll, elsesAll, List.append_nil]
      exact ⟨rfl, (ih n List.mem_cons_self).2⟩
    | _ :: _ :: _, _ => exact ⟨rfl, rfl⟩
  | ifOnly _ _ ih => exact ⟨by rw [unwrapped, elses, elses, ih.1]; rfl, rfl⟩
  | ifElse _ _ hn ihy ihn =>
    refine ⟨?_, rfl⟩
    rw [unwrapped, elses, elses, ihy.1, ihn.1, ihn.2, hn.isAbsent]
  | forLoop _ _ _ _ ih | forIn _ _ _ ih | whileLoop _ _ ih | withObject _ _ ih =>
    exact ⟨ih.1, rfl⟩

theorem length_elses_hang (hy : Plain y) (ho : endsOpen y = true) :
    (elses (hang n y)).length = (elses y).length + (elses n).length := by
  induction hy with
  | stat | block => cases ho
  | ifOnly _ _ ih =>
    rw [hang_ifOnly]
    split
    · next h =>
      simp only [elses, List.length_cons, List.length_append, ih h, List.length_nil]
      omega
    · simp only [elses, List.length_cons, List.length_append, List.length_nil]
      omega
  | ifElse _ _ he _ ih =>
    rw [endsOpen_ifElse he.isAbsent] at ho
    rw [hang_ifElse he.isAbsent]
    simp only [elses, List.length_cons, List.length_append, ih ho]
    omega
  | forLoop _ _ _ _ ih | forIn _ _ _ ih | whileLoop _ _ ih | withObject _ _ ih => exact ih ho

/-- No `if` is lost or added. -/
theorem length_elses_attached (h : Plain t) : (elses (attached t)).length = (elses t).length := by
  induction h with
  | stat => rfl
  | block _ ih =>
    rw [attached, attachedAll_eq, elses, elses, elsesAll_eq, elsesAll_eq, List.flatMap_map,
      List.length_flatMap, List.length_flatMap]
    exact congrArg _ (List.map_congr_left ih)
  | ifOnly _ _ ih =>
    rw [attached_ifOnly]
    simp [ih]
  | ifElse _ hy hn ihy ihn =>
    rw [attached_ifElse hn.isAbsent]
    split
    · simp [ihy, ihn]
    · split
      · next ho => simp [length_elses_hang (plain_attached hy) ho, ihy, ihn]
      · simp [ihy, ihn]
  | forLoop _ _ _ _ ih | forIn _ _ _ ih | whileLoop _ _ ih | withObject _ _ ih => exact ih

/-- Where the printer guards each `else`, a statement is read as itself, up to blocks of one
    statement. -/
theorem unwrapped_attached (h : Plain t) (hclosed : Throughout Guarded t) :
    unwrapped (attached t) = unwrapped t ∧ endsOpen (attached t) = endsOpen t := by
  induction h with
  | stat => exact ⟨rfl, rfl⟩
  | @block ns _ ih =>
    obtain ⟨-, hparts⟩ := (throughout_iff rfl).mp hclosed
    have hns := (forall_list rfl).mp hparts
    have hall : ns.map (unwrapped ∘ attached) = ns.map unwrapped :=
      List.map_congr_left fun n hn => (ih n hn (hns n hn)).1
    refine ⟨?_, rfl⟩
    rw [attached, attachedAll_eq, unwrapped, unwrapped, unwrappedAll_eq, unwrappedAll_eq,
      List.map_map, hall]
  | ifOnly _ _ ih =>
    obtain ⟨-, hparts⟩ := (throughout_iff rfl).mp hclosed
    obtain ⟨-, hy, -⟩ := (forall_three rfl).mp hparts
    rw [attached_ifOnly, unwrapped, unwrapped, (ih hy).1]
    exact ⟨rfl, rfl⟩
  | @ifElse c y n _ hy hn ihy ihn =>
    obtain ⟨hguard, hparts⟩ := (throughout_iff rfl).mp hclosed
    obtain ⟨-, hy', hn'⟩ := (forall_three rfl).mp hparts
    obtain ⟨hsame, hends⟩ := ihy hy'
    obtain ⟨hsame', hends'⟩ := ihn hn'
    have hpresent := (plain_attached hn).isAbsent
    rw [attached_ifElse hn.isAbsent, endsOpen_ifElse hn.isAbsent]
    split
    · rw [unwrapped, unwrapped_block_single, hsame, hsame', endsOpen_ifElse hpresent, hends',
        unwrapped]
      exact ⟨rfl, rfl⟩
    · next hcaptures =>
      have hfree : endsOpen y = false := by
        rcases hguard with h | h | h
        · simp [hn.isAbsent] at h
        · exact absurd h hcaptures
        · exact h
      rw [hends, hfree, if_neg Bool.false_ne_true, unwrapped, hsame, hsame',
        endsOpen_ifElse hpresent, hends', unwrapped]
      exact ⟨rfl, rfl⟩
  | forLoop _ _ _ _ ih =>
    obtain ⟨-, hparts⟩ := (throughout_iff rfl).mp hclosed
    obtain ⟨-, -, -, hb⟩ := (forall_four rfl).mp hparts
    rw [attached, unwrapped, unwrapped, (ih hb).1]
    exact ⟨rfl, (ih hb).2⟩
  | forIn _ _ _ ih =>
    obtain ⟨-, hparts⟩ := (throughout_iff rfl).mp hclosed
    obtain ⟨-, -, hb⟩ := (forall_three rfl).mp hparts
    rw [attached, unwrapped, unwrapped, (ih hb).1]
    exact ⟨rfl, (ih hb).2⟩
  | whileLoop _ _ ih | withObject _ _ ih =>
    obtain ⟨-, hparts⟩ := (throughout_iff rfl).mp hclosed
    obtain ⟨-, hb⟩ := (forall_two rfl).mp hparts
    rw [attached, unwrapped, unwrapped, (ih hb).1]
    exact ⟨rfl, (ih hb).2⟩

/-- Where each `if` has an `else` in the text that has one in the tree, the printer guards each. -/
theorem guarded_of_elses (h : Plain t) (hsame : elses (attached t) = elses t) :
    Throughout Guarded t := by
  have hname (x : String) : Throughout Guarded (.name x) :=
    (throughout_iff rfl).mpr ⟨trivial, List.forall_mem_nil _⟩
  induction h with
  | stat => exact (throughout_iff rfl).mpr ⟨trivial, List.forall_mem_singleton.mpr (hname _)⟩
  | @block ns hns ih =>
    rw [throughout_iff rfl, forall_list rfl]
    refine ⟨trivial, fun n hn => ih n hn ?_⟩
    rw [attached, attachedAll_eq, elses, elses] at hsame
    clear ih
    induction ns with
    | nil => cases hn
    | cons m ns ih =>
      obtain ⟨hm, hns⟩ := List.forall_mem_cons.mp hns
      rw [List.map_cons, elsesAll, elsesAll] at hsame
      obtain ⟨hfirst, hothers⟩ := List.append_inj hsame (length_elses_attached hm)
      rcases List.mem_cons.mp hn with rfl | hn
      · exact hfirst
      · exact ih hns hothers hn
  | ifOnly _ _ ih =>
    rw [attached_ifOnly, elses, elses] at hsame
    rw [throughout_iff rfl, forall_three rfl]
    exact ⟨.inl rfl, hname _, ih (by simpa using hsame), throughout_absent⟩
  | @ifElse c y n _ hy hn ihy ihn =>
    have hpresent := (plain_attached hn).isAbsent
    have hsides : elses (attached y) ++ elses (attached n) = elses y ++ elses n →
        Throughout Guarded y ∧ Throughout Guarded n := fun hsides => by
      obtain ⟨hyes, hno⟩ := List.append_inj hsides (length_elses_attached hy)
      exact ⟨ihy hyes, ihn hno⟩
    rw [attached_ifElse hn.isAbsent] at hsame
    rw [throughout_iff rfl, forall_three rfl]
    split at hsame
    · next hcaptures =>
      simp only [elses, elsesAll, hpresent, hn.isAbsent, List.append_nil, List.cons.injEq, true_and]
        at hsame
      obtain ⟨hy', hn'⟩ := hsides hsame
      exact ⟨.inr (.inl hcaptures), hname c, hy', hn'⟩
    · split at hsame
      · simp only [elses, hn.isAbsent, List.cons.injEq] at hsame
        cases hsame.1
      · next ho =>
        simp only [elses, hpresent, hn.isAbsent, List.cons.injEq, true_and] at hsame
        obtain ⟨hy', hn'⟩ := hsides hsame
        have hfree : endsOpen y = false := by
          rw [← (unwrapped_attached hy hy').2]
          exact Bool.eq_false_iff.mpr ho
        exact ⟨.inr (.inr hfree), hname c, hy', hn'⟩
  | forLoop hi hc hs _ ih =>
    rw [throughout_iff rfl, forall_four rfl]
    exact ⟨trivial, hi.throughout fun _ => trivial, hc.throughout fun _ => trivial,
      hs.throughout fun _ => trivial, ih hsame⟩
  | forIn _ _ _ ih =>
    rw [throughout_iff rfl, forall_three rfl]
    exact ⟨trivial, hname _, hname _, ih hsame⟩
  | whileLoop _ _ ih | withObject _ _ ih =>
    rw [throughout_iff rfl, forall_two rfl]
    exact ⟨trivial, hname _, ih hsame⟩

end

end Resumable.Reading
