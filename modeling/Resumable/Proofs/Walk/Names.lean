/-
  Resumable.Proofs.Walk.Names — the names that a walk meets and puts together.

  The operands of an expression mention no names but its own.  What is put together from the values
  of operands mentions those of the values, of the expression and of the container.
-/
import Resumable.Proofs.Scope.Mentions

namespace Resumable.Program.Walk

open Node (NamesAllIn namesIn_name namesIn_children namesIn_leaf namesAllIn_nil namesAllIn_cons
  namesAllIn_append)

/-- The nodes that a job walks. -/
def Job.nodes : Job → List Node
  | .expr n | .effect n | .stmt n | .region n | .test n | .step n => [n]
  | .operands ns | .stmts ns => ns
  | .bindings ds => ds.map (·.2)

section

variable {A : String → Prop} {σ : Scope} {n t : Node} {vs : List Node}

theorem namesIn_one : NamesAllIn A [n] ↔ n.NamesIn A := List.forall_mem_singleton

theorem Job.Leads.names {job job' : Job} (h : job.Leads job') (hn : NamesAllIn A job.nodes) :
    NamesAllIn A job'.nodes := by
  cases h with
  | expression | region | step => exact hn
  | stat e | var ds | block ns | splice ns =>
    exact (namesIn_children rfl rfl).mp (namesIn_one.mp hn)

/-! ## §1. Operands. -/

theorem placeParts_names (ht : t.NamesIn A) : NamesAllIn A (placeParts t) := by
  cases t with
  | dot b f => exact (namesIn_children rfl (l := [b]) rfl).mp ht
  | sub b i => exact (namesIn_children rfl (l := [b, i]) rfl).mp ht
  | _ => exact namesAllIn_nil

theorem calleeParts_names {c : Node} (hc : c.NamesIn A) : NamesAllIn A (calleeParts c) := by
  unfold calleeParts
  split
  · exact placeParts_names hc
  · exact namesIn_one.mpr hc

theorem operandParts_names {op : String} {e : Node} (he : e.NamesIn A) :
    NamesAllIn A (operandParts op e) := by
  unfold operandParts
  split
  · exact placeParts_names he
  · exact namesIn_one.mpr he

/-- The operands of an expression mention no names but its own. -/
theorem parts_names (hn : n.NamesIn A) : NamesAllIn A (parts n) := by
  cases n with
  | call c as =>
    rw [namesIn_children rfl rfl, namesAllIn_cons] at hn
    exact namesAllIn_append.mpr ⟨calleeParts_names hn.1, hn.2⟩
  | unary side op e =>
    exact operandParts_names (namesIn_one.mp ((namesIn_children rfl (l := [e]) rfl).mp hn))
  | assign op t v =>
    rw [namesIn_children rfl (l := [t, v]) rfl, namesAllIn_cons] at hn
    exact namesAllIn_append.mpr ⟨placeParts_names hn.1, hn.2⟩
  | new c as | array as | object ps => exact (namesIn_children rfl rfl).mp hn
  | binary op l r => exact (namesIn_children rfl (l := [l, r]) rfl).mp hn
  | sub b i => exact (namesIn_children rfl (l := [b, i]) rfl).mp hn
  | dot b f => exact (namesIn_children rfl (l := [b]) rfl).mp hn
  | _ => exact namesAllIn_nil

/-! ## §2. Expressions with the values of their operands. -/

theorem namesIn_headD (hn : n.NamesIn A) (hvs : NamesAllIn A vs) : (vs.headD n).NamesIn A := by
  cases vs with
  | nil => exact hn
  | cons v vs => exact hvs v List.mem_cons_self

theorem placeFrom_names (ht : t.NamesIn A) (hvs : NamesAllIn A vs) (hσ : A σ.container) :
    (placeFrom σ t vs).NamesIn A := by
  cases t with
  | name x =>
    show (σ.resolve x).NamesIn A
    exact Scope.namesIn_resolve hσ (namesIn_name.mp ht)
  | dot b f =>
    match vs with
    | [] => exact ht
    | v :: _ =>
      rw [namesAllIn_cons] at hvs
      exact (namesIn_children rfl (l := [v]) rfl).mpr (namesIn_one.mpr hvs.1)
  | sub b i =>
    match vs with
    | [] | [_] => exact ht
    | v :: w :: _ =>
      rw [namesAllIn_cons, namesAllIn_cons] at hvs
      rw [placeFrom, namesIn_children rfl (l := [v, w]) rfl, namesAllIn_cons, namesIn_one]
      exact ⟨hvs.1, hvs.2.1⟩
  | _ => exact ht

/-- A member access is put together in the same way wherever it stands. -/
theorem assemble_member (h : isMember n = true) : assemble σ n vs = placeFrom σ n vs := by
  cases n with
  | dot b f =>
    match vs with
    | [] | _ :: _ => rfl
  | sub b i =>
    match vs with
    | [] | [_] | _ :: _ :: _ => rfl
  | _ => cases h

/-- What is put together mentions the names of the values, of the expression and of the
    container. -/
theorem assemble_names (hn : n.NamesIn A) (hvs : NamesAllIn A vs) (hσ : A σ.container) :
    (assemble σ n vs).NamesIn A := by
  have hdrop : ∀ k, NamesAllIn A (vs.drop k) := fun k v hv => hvs v (List.mem_of_mem_drop hv)
  cases n with
  | call c as =>
    rw [namesIn_children rfl rfl, namesAllIn_cons] at hn
    refine (namesIn_children rfl rfl).mpr (namesAllIn_cons.mpr ⟨?_, hdrop _⟩)
    unfold calleeFrom
    split
    · exact placeFrom_names hn.1 hvs hσ
    · exact namesIn_headD hn.1 hvs
  | unary side op e =>
    rw [namesIn_children rfl (l := [e]) rfl, namesIn_one] at hn
    rw [assemble, namesIn_children rfl (l := [operandFrom σ op e vs]) rfl, namesIn_one]
    unfold operandFrom
    split
    · exact placeFrom_names hn hvs hσ
    · exact namesIn_headD hn hvs
  | assign op t v =>
    rw [namesIn_children rfl (l := [t, v]) rfl, namesAllIn_cons, namesIn_one] at hn
    refine (namesIn_children rfl (l := [_, _]) rfl).mpr (namesAllIn_cons.mpr ⟨?_, ?_⟩)
    · exact placeFrom_names hn.1 hvs hσ
    · exact namesIn_one.mpr (namesIn_headD (namesIn_leaf rfl rfl) (hdrop _))
  | new c as =>
    match vs with
    | [] => exact hn
    | _ :: _ => exact (namesIn_children rfl rfl).mpr hvs
  | binary op l r =>
    match vs with
    | [] | [_] => exact hn
    | v :: w :: _ =>
      rw [namesAllIn_cons, namesAllIn_cons] at hvs
      rw [assemble, namesIn_children rfl (l := [v, w]) rfl, namesAllIn_cons, namesIn_one]
      exact ⟨hvs.1, hvs.2.1⟩
  | sub b i | dot b f =>
    rw [assemble_member rfl]
    exact placeFrom_names hn hvs hσ
  | array es => exact (namesIn_children rfl rfl).mpr hvs
  | object ps =>
    refine (namesIn_children rfl rfl).mpr fun v hv => ?_
    obtain ⟨p, hp, rfl⟩ := List.mem_map.mp hv
    exact hvs p.2 (List.of_mem_zip hp).2
  | _ => exact hn

end

end Resumable.Program.Walk
