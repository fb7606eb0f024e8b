/-
  Resumable.Proofs.Code.Commands — an instruction is known by its command.

  A reader of executable code looks at the command of a record first and then reads the fields
  that the command calls for.  So a record is read back as what it was written for only if no leaf
  has a command that stands for a branch, a loop or a function.  The code of a program has none:
  the commands of its leaves are `call`, `stat`, `test` and the tags of the statements that are
  passed through.

  Main statement: `proper_of_toCode`.  The code of a transformed unit is proper.
-/
import Resumable.Proofs.Code.Figures

namespace Resumable

/-! ## §1. Proper code. -/

namespace Op

/-- Whether an instruction is no leaf whose command is empty or stands for something else. -/
def isProper : Op → Bool
  | leaf command _ _ => command != "" && command != "if" && command != "for" && command != "defun"
  | _ => true

/-- The instructions inside an instruction. -/
def inner : Op → List Op
  | leaf _ _ _ => []
  | branch _ yes no _ => yes ++ no
  | loop cond step body _ => cond ++ step ++ body
  | defun _ _ code _ => code

theorem walkAll_append (enter : Op → Bool) (xs ys : List Op) :
    walkAll enter (xs ++ ys) = walkAll enter xs ++ walkAll enter ys := by
  induction xs with
  | nil => rfl
  | cons x xs ih => rw [List.cons_append, walkAll, walkAll, ih, List.append_assoc]

theorem walk_eq (o : Op) : o.walk (fun _ => true) = o :: Code.all o.inner := by
  cases o <;> simp [walk, inner, Code.all, walkAll, walkAll_append]

end Op

namespace Code

section

variable {P : Op → Prop}

/-- Whether a property holds of the instructions of a code, nested ones included. -/
def Every (P : Op → Prop) (code : Code) : Prop := ∀ o ∈ code.all, P o

theorem every_nil : Every P [] := List.forall_mem_nil _

theorem every_append {xs ys : Code} : Every P (xs ++ ys) ↔ Every P xs ∧ Every P ys := by
  unfold Every all
  rw [Op.walkAll_append, List.forall_mem_append]

theorem every_cons {o : Op} {rest : Code} :
    Every P (o :: rest) ↔ P o ∧ Every P o.inner ∧ Every P rest := by
  unfold Every all
  rw [Op.walkAll, Op.walk_eq, List.cons_append, List.forall_mem_cons, List.forall_mem_append]
  rfl

end

/-- Code in which the commands of leaves are not empty and stand for leaves. -/
def Proper (code : Code) : Prop := ∀ o ∈ code.all, o.isProper = true

instance (code : Code) : Decidable code.Proper :=
  inferInstanceAs (Decidable (∀ o ∈ code.all, o.isProper = true))

theorem proper_nil : Proper [] := every_nil

theorem proper_append {xs ys : Code} : Proper (xs ++ ys) ↔ Proper xs ∧ Proper ys := every_append

theorem proper_cons {o : Op} {rest : Code} :
    Proper (o :: rest) ↔ o.isProper = true ∧ Proper o.inner ∧ Proper rest := every_cons

end Code

/-! ## §2. Programs. -/

namespace Program

open Code (proper_nil proper_append proper_cons)

/-- Whether an instruction is no leaf whose command is empty or stands for something else. -/
def Instr.isProper : Instr → Bool
  | leaf command _ _ => command != "" && command != "if" && command != "for" && command != "defun"
  | _ => true

/-- A passed statement has a command of its own. -/
theorem isProper_of_isPassed {n m : Node} {async : Bool} (h : Walk.isPassed n = true) :
    (Instr.leaf n.tag m async).isProper = true := by
  cases n <;> cases h <;> rfl

namespace Walk

open Instr (Every every_nil every_append every_cons every_single)

variable {env : Surface} {job : Job} {σ σ' : Scope} {vs : List Node} {split : Bool}
  {code : List Instr}

/-- No leaf that a walk makes has a command that stands for something else. -/
theorem Emits.proper (h : Emits env job σ vs split code σ') :
    Every (fun i => i.isProper = true) code := by
  induction h with
  | reference _ | literal _ | copied _ | operandsNil | void _ | stmtsNil | bindingsNil =>
    exact every_nil
  | kept _ _ ih | leads _ _ ih => exact ih
  | captured _ _ ih | assigned _ _ ih =>
    exact every_append.mpr ⟨ih, every_single.mpr ⟨rfl, every_nil⟩⟩
  | called _ ih =>
    exact every_append.mpr ⟨ih, every_cons.mpr ⟨rfl, every_nil, every_single.mpr ⟨rfl, every_nil⟩⟩⟩
  | operandsCons _ _ ihHead ihTail | stmtsCons _ _ ihHead ihTail =>
    exact every_append.mpr ⟨ihHead, ihTail⟩
  | @effect _ _ _ _ split _ _ ih =>
    refine every_append.mpr ⟨ih, ?_⟩
    cases split with
    | true => exact every_nil
    | false => exact every_single.mpr ⟨rfl, every_nil⟩
  | branch _ _ _ ihCond ihYes ihNo =>
    refine every_append.mpr ⟨ihCond, every_single.mpr ⟨rfl, ?_⟩⟩
    exact every_append.mpr ⟨ihYes, ihNo⟩
  | test _ ih => exact every_append.mpr ⟨ih, every_single.mpr ⟨rfl, every_nil⟩⟩
  | loop _ _ _ _ ihInit ihTest ihStep ihBody =>
    refine every_append.mpr ⟨ihInit, every_single.mpr ⟨rfl, ?_⟩⟩
    exact every_append.mpr ⟨every_append.mpr ⟨ihTest, ihStep⟩, ihBody⟩
  | declaration _ ih => exact every_single.mpr ⟨rfl, ih⟩
  | passed hp => exact every_single.mpr ⟨isProper_of_isPassed hp, every_nil⟩
  | bare _ ih => exact every_cons.mpr ⟨rfl, every_nil, ih⟩
  | @bound _ _ _ _ _ _ _ _ split _ _ _ _ _ ihValue ihRest =>
    refine every_append.mpr ⟨every_append.mpr ⟨?_, ihValue⟩, ?_⟩
    · cases split with
      | true => exact every_single.mpr ⟨rfl, every_nil⟩
      | false => exact every_nil
    · exact every_cons.mpr ⟨rfl, every_nil, ihRest⟩

end Walk

open Instr (Every every_append every_cons)

variable {render : Renderer}

mutual

theorem serialize_proper {path : List String} {i : Instr} {op : Op}
    (h : serialize render path i = .ok op) (hi : i.isProper = true)
    (hinner : Every (fun i => i.isProper = true) i.inner) :
    op.isProper = true ∧ Code.Proper op.inner := by
  cases i with
  | leaf command code async =>
    rw [serialize] at h
    obtain ⟨text, -, h⟩ := bind_eq_ok h
    cases h
    exact ⟨hi, proper_nil⟩
  | branch cond yes no hasElse shape yesTemp noTemp =>
    rw [serialize] at h
    obtain ⟨text, -, h⟩ := bind_eq_ok h
    obtain ⟨yes', hyes, h⟩ := bind_eq_ok h
    obtain ⟨no', hno, h⟩ := bind_eq_ok h
    cases h
    obtain ⟨inYes, inNo⟩ := every_append.mp hinner
    exact ⟨rfl, proper_append.mpr ⟨serializeAll_proper hyes inYes, serializeAll_proper hno inNo⟩⟩
  | loop cond test step body split expr =>
    rw [serialize] at h
    obtain ⟨test', htest, h⟩ := bind_eq_ok h
    obtain ⟨step', hstep, h⟩ := bind_eq_ok h
    obtain ⟨body', hbody, h⟩ := bind_eq_ok h
    cases h
    obtain ⟨inTests, inBody⟩ := every_append.mp hinner
    obtain ⟨inTest, inStep⟩ := every_append.mp inTests
    refine ⟨rfl, proper_append.mpr ⟨proper_append.mpr ⟨?_, ?_⟩, serializeAll_proper hbody inBody⟩⟩
    · exact serializeAll_proper htest inTest
    · exact serializeAll_proper hstep inStep
  | defun name params body =>
    rw [serialize] at h
    obtain ⟨body', hbody, h⟩ := bind_eq_ok h
    cases h
    exact ⟨rfl, serializeAll_proper hbody hinner⟩

/-- The commands of a program are those of its code. -/
theorem serializeAll_proper {path : List String} {k : Nat} {list : List Instr} {code : Code}
    (h : serializeAll render path k list = .ok code)
    (hlist : Every (fun i => i.isProper = true) list) : code.Proper := by
  cases list with
  | nil =>
    cases h
    exact proper_nil
  | cons i rest =>
    obtain ⟨hi, hinner, hrest⟩ := every_cons.mp hlist
    rw [serializeAll] at h
    obtain ⟨op, hop, h⟩ := bind_eq_ok h
    obtain ⟨ops, hops, h⟩ := bind_eq_ok h
    cases h
    obtain ⟨hproper, hin⟩ := serialize_proper hop hi hinner
    exact proper_cons.mpr ⟨hproper, hin, serializeAll_proper hops hrest⟩

end

/-- The code of a transformed unit is proper, whatever renders its payloads. -/
theorem proper_of_toCode {naming : Naming} {isAsync : String → Bool} {unit : Node}
    {t : Transformed} {code : Code} (ht : (transform naming isAsync unit).1 = .ok t)
    (h : toCode render t.program = .ok code) : code.Proper := by
  obtain ⟨body, σ, -, derived⟩ := transform_emits ht
  obtain ⟨vs, split, emits⟩ := derived.emits
  exact serializeAll_proper h emits.proper

end Program

end Resumable
